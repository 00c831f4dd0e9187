import GoMesi.Go.Utf8
import GoMesi.Mesi.Simulate

/-!
# Edge-control

Whether a response asks for ESI processing is read off its `Edge-control` field in four places. The
core splits the value at commas, takes the case of its letters and the white space around the
elements away, and looks for `dca=esi`. The scanners of the nginx and the Apache module do the same
byte by byte, and the Go proxy compares the value as a whole.

The scanners know white space and letters of ASCII only, so that they find less than the core. The
proxy finds only the value that is nothing but `dca=esi`. So the four agree on this value and on
those in which the core finds nothing.
-/

namespace GoMesi

open Strings

/-! ## The scanners -/

/-- `mesi_is_header_space`, and the comparisons in its place in the nginx module. -/
def mesiIsHeaderSpace (c : UInt8) : Bool :=
  c = 0x20 || c = 0x09 || c = 0x0d || c = 0x0a || c = 0x0b || c = 0x0c

/-- Drop white space at the end. -/
def trimHeaderEnd (s : Bytes) : Bytes := (s.reverse.dropWhile mesiIsHeaderSpace).reverse

/-- `strncasecmp` and `ngx_strncasecmp` with the length of `w` find no difference. -/
def strncasecmpEq (s w : Bytes) : Bool := (s.take w.length).map asciiLower = w.map asciiLower

/-- An element without the white space around it is `dca=esi`. -/
def isDcaEsi (inner : Bytes) : Bool :=
  inner.length = (lit "dca=esi").length && strncasecmpEq inner (lit "dca=esi")

/-- The bytes of an element of the list. -/
def isElementByte (c : UInt8) : Bool := c ≠ 0x2c

/-- The bytes of an element of a list in a C string. -/
def isCStringElementByte (c : UInt8) : Bool := c ≠ 0 && c ≠ 0x2c

namespace Nginx

/-- The loop of `mesi_header_signals_esi`, for the part of the value that begins at `start`. -/
def scanHeader (rest : Bytes) : Bool :=
  let element := rest.takeWhile isElementByte
  if isDcaEsi (trimHeaderEnd (element.dropWhile mesiIsHeaderSpace)) then true
  else
    match _h : rest.dropWhile isElementByte with
    | [] => false
    | _ :: next => scanHeader next
termination_by rest.length
decreasing_by
  have hle := (List.dropWhile_suffix (l := rest) isElementByte).length_le
  rw [_h, List.length_cons] at hle
  omega

/-- `mesi_header_signals_esi` -/
def mesiHeaderSignalsEsi (value : Bytes) : Bool :=
  if value.length = 0 then false else scanHeader value

end Nginx

namespace Apache

/-- The loop of `mesi_header_signals_esi`, for the part of the value that `p` points to. The string
ends at a NUL byte. -/
def scanHeader (p : Bytes) : Bool :=
  let start := p.dropWhile mesiIsHeaderSpace
  let element := start.takeWhile isCStringElementByte
  if isDcaEsi (trimHeaderEnd element) then true
  else
    match _h : start.dropWhile isCStringElementByte with
    | [] => false
    | c :: next => if c = 0 then false else scanHeader next
termination_by p.length
decreasing_by
  have hle := ((List.dropWhile_suffix isCStringElementByte).trans
    (List.dropWhile_suffix (l := p) mesiIsHeaderSpace)).length_le
  rw [_h, List.length_cons] at hle
  omega

/-- `mesi_header_signals_esi`, with `none` for a field that is not there. -/
def mesiHeaderSignalsEsi : Option Bytes → Bool
  | none => false
  | some value => scanHeader value

end Apache

namespace Proxy

/-- What `ServeHTTP` asks of the headers of a response, when it limits the body and when it decides
to parse it. -/
def signalsEsi (h : Header) : Bool := h.get (lit "Edge-control") = lit "dca=esi"

end Proxy

/-! ## What the scanners find -/

/-- An element without the ASCII white space around it. -/
def trimHeaderSpace (element : Bytes) : Bytes :=
  trimHeaderEnd (element.dropWhile mesiIsHeaderSpace)

theorem split_of_dropWhile_nil {rest : Bytes} (h : rest.dropWhile isElementByte = []) :
    split rest 0x2c = [rest.takeWhile isElementByte] := by
  have hmem : (0x2c : UInt8) ∉ rest := by
    intro hmem
    exact absurd (List.dropWhile_eq_nil_iff.mp h _ hmem) (by decide)
  have htake : rest.takeWhile isElementByte = rest := by
    rw [List.takeWhile_eq_self_iff]
    intro c hc
    apply decide_eq_true
    rintro rfl
    exact hmem hc
  rw [htake]
  exact List.splitOn_eq_singleton hmem

theorem split_of_dropWhile_cons {rest next : Bytes} {c : UInt8}
    (h : rest.dropWhile isElementByte = c :: next) :
    split rest 0x2c = rest.takeWhile isElementByte :: split next 0x2c := by
  have hc : c = 0x2c := by
    have hhead := List.head?_dropWhile_not isElementByte rest
    rw [h] at hhead
    simpa [isElementByte] using hhead
  have hmem : (0x2c : UInt8) ∉ rest.takeWhile isElementByte := by
    intro hmem
    exact absurd (List.mem_takeWhile_imp hmem) (by decide)
  subst hc
  conv_lhs => rw [← List.takeWhile_append_dropWhile (p := isElementByte) (l := rest), h]
  rw [split, List.splitOn_append_cons_self, List.splitOn_eq_singleton hmem]
  rfl

/-- The scanner of the nginx module finds what a split at the commas has. -/
theorem Nginx.scanHeader_iff (rest : Bytes) :
    scanHeader rest = true ↔
      ∃ element ∈ split rest 0x2c, isDcaEsi (trimHeaderSpace element) = true := by
  fun_induction scanHeader rest with
  | case1 rest element h =>
    refine iff_of_true rfl ⟨element, ?_, h⟩
    cases hdrop : rest.dropWhile isElementByte with
    | nil => rw [split_of_dropWhile_nil hdrop]; exact List.mem_singleton_self _
    | cons c next => rw [split_of_dropWhile_cons hdrop]; exact List.mem_cons_self
  | case2 rest element h hdrop =>
    rw [split_of_dropWhile_nil hdrop]
    refine iff_of_false (by decide) ?_
    rintro ⟨element', hmem, h'⟩
    rw [List.mem_singleton.mp hmem] at h'
    exact h h'
  | case3 rest element h c next hdrop ih =>
    rw [split_of_dropWhile_cons hdrop, ih, List.exists_mem_cons_iff]
    exact (or_iff_right h).symm

/-- White space in front of an element belongs to no other. -/
theorem dropWhile_headerSpace (rest : Bytes) :
    rest.dropWhile mesiIsHeaderSpace =
      (rest.takeWhile isElementByte).dropWhile mesiIsHeaderSpace ++
        rest.dropWhile isElementByte := by
  induction rest with
  | nil => rfl
  | cons c rest ih =>
    by_cases hc : c = 0x2c
    · subst hc
      rfl
    · have hne : isElementByte c = true := decide_eq_true hc
      rw [List.takeWhile_cons_of_pos hne, List.dropWhile_cons_of_pos hne]
      by_cases hspace : mesiIsHeaderSpace c = true
      · rw [List.dropWhile_cons_of_pos hspace, List.dropWhile_cons_of_pos hspace, ih]
      · rw [List.dropWhile_cons_of_neg hspace, List.dropWhile_cons_of_neg hspace, List.cons_append,
          List.takeWhile_append_dropWhile]

/-- A string that a predicate holds of, in front of one that starts otherwise. -/
theorem takeWhile_dropWhile_append {p : UInt8 → Bool} {x y : Bytes} (hx : ∀ c ∈ x, p c = true)
    (hy : ∀ c ∈ y.head?, p c = false) :
    (x ++ y).takeWhile p = x ∧ (x ++ y).dropWhile p = y := by
  rw [List.takeWhile_append_of_pos hx, List.dropWhile_append_of_pos hx]
  cases y with
  | nil => simp
  | cons c y =>
    have hc : ¬ p c = true := by
      rw [hy c rfl]
      decide
    rw [List.takeWhile_cons_of_neg hc, List.dropWhile_cons_of_neg hc, List.append_nil]
    exact ⟨rfl, rfl⟩

theorem mesiIsHeaderSpace_comma : mesiIsHeaderSpace 0x2c = false := rfl

/-- The element that the Apache module reads, and what is behind it. -/
theorem Apache.element_eq {p : Bytes} (hnul : 0 ∉ p) :
    (p.dropWhile mesiIsHeaderSpace).takeWhile isCStringElementByte =
        (p.takeWhile isElementByte).dropWhile mesiIsHeaderSpace ∧
      (p.dropWhile mesiIsHeaderSpace).dropWhile isCStringElementByte =
        p.dropWhile isElementByte := by
  rw [dropWhile_headerSpace]
  apply takeWhile_dropWhile_append
  · intro c hc
    have hmem := (List.dropWhile_suffix _).subset hc
    have helement : isElementByte c = true := List.mem_takeWhile_imp hmem
    have hcomma : c ≠ 0x2c := of_decide_eq_true helement
    have hzero : c ≠ 0 := by
      rintro rfl
      exact hnul ((List.takeWhile_prefix _).subset hmem)
    rw [isCStringElementByte, decide_eq_true hzero, decide_eq_true hcomma]
    rfl
  · intro c hc
    have hhead := List.head?_dropWhile_not isElementByte p
    rw [Option.mem_def.mp hc] at hhead
    have hcomma : c = 0x2c := by simpa [isElementByte] using hhead
    rw [hcomma]
    rfl

/-- The scanner of the Apache module finds what that of the nginx module does. -/
theorem Apache.scanHeader_eq {p : Bytes} (hnul : 0 ∉ p) :
    scanHeader p = Nginx.scanHeader p := by
  fun_induction Nginx.scanHeader p with
  | case1 rest element h =>
    rw [scanHeader, (element_eq hnul).1, if_pos h]
  | case2 rest element h hdrop =>
    rw [scanHeader, (element_eq hnul).1, if_neg h]
    have hdrop' := (element_eq hnul).2.trans hdrop
    split
    · rfl
    · rename_i heq
      rw [hdrop'] at heq
      cases heq
  | case3 rest element h c next hdrop ih =>
    have hnext : next <:+ rest := (List.suffix_cons c next).trans (hdrop ▸ List.dropWhile_suffix _)
    have hc : c ≠ 0 := by
      rintro rfl
      exact hnul ((List.dropWhile_suffix _).subset (hdrop ▸ List.mem_cons_self))
    rw [scanHeader, (element_eq hnul).1, if_neg h]
    have hdrop' := (element_eq hnul).2.trans hdrop
    split
    · rename_i heq
      rw [hdrop'] at heq
      cases heq
    · rename_i heq
      rw [hdrop'] at heq
      obtain ⟨rfl, rfl⟩ := List.cons.inj heq
      rw [if_neg hc]
      exact ih fun hmem ↦ hnul (hnext.subset hmem)

/-! ## What the core finds -/

/-- A word with white space around it. -/
def Padded (element word : Bytes) : Prop :=
  ∃ a b, IsSpaces a ∧ IsSpaces b ∧ element = a ++ word ++ b

/-- An element of the value, in lower case, is `dca=esi` with white space around it. -/
def MarksEsi (U : Unicode) (value : Bytes) : Prop :=
  ∃ element ∈ split (toLower U value) 0x2c, Padded element (lit "dca=esi")

theorem firm_dcaEsi : Firm spaces (lit "dca=esi") :=
  Firm.of_head (by decide) (by decide) _

theorem firm_reverse_dcaEsi : Firm (spaces.map List.reverse) (lit "dca=esi").reverse :=
  Firm.of_head (by decide) (by decide) _

theorem isEsiResponse_iff (U : Unicode) (response : HttpResponse) :
    isEsiResponse U response = true ↔ MarksEsi U (response.header.get (lit "Edge-control")) := by
  rw [isEsiResponse, List.any_eq_true]
  refine exists_congr fun element ↦ and_congr_right fun _ ↦ ?_
  rw [decide_eq_true_iff]
  exact trimSpace_eq_iff firm_dcaEsi firm_reverse_dcaEsi

/-! ## What the scanners find, the core finds -/

theorem asciiLower_of_space {c : UInt8} (hc : mesiIsHeaderSpace c = true) :
    asciiLower c = c ∧ [c] ∈ spaces ∧ c < 0x80 ∧ c ≠ 0x2c := by
  simp only [mesiIsHeaderSpace, Bool.or_eq_true, decide_eq_true_eq] at hc
  rcases hc with ((((rfl | rfl) | rfl) | rfl) | rfl) | rfl <;> decide

theorem lt_of_asciiLower_lt {c : UInt8} (hc : asciiLower c < 0x80) : c < 0x80 := by
  rw [asciiLower] at hc
  split_ifs at hc with h
  · have h₁ := UInt8.le_iff_toNat_le.mp h.2
    rw [UInt8.lt_iff_toNat_lt]
    have h₂ : (0x5a : UInt8).toNat = 90 := rfl
    have h₃ : (0x80 : UInt8).toNat = 128 := rfl
    omega
  · exact hc

theorem asciiLower_eq_comma {c : UInt8} (h : asciiLower c = 0x2c) : c = 0x2c := by
  rw [asciiLower] at h
  split_ifs at h with hupper
  · have h₁ := UInt8.le_iff_toNat_le.mp hupper.1
    have h₂ := UInt8.le_iff_toNat_le.mp hupper.2
    have h₃ := congrArg UInt8.toNat h
    rw [UInt8.toNat_add] at h₃
    simp only [UInt8.reduceToNat] at h₁ h₂ h₃
    omega
  · exact h

theorem isSpaces_of_headerSpace {s : Bytes} (hs : ∀ c ∈ s, mesiIsHeaderSpace c = true) :
    IsSpaces s := by
  refine ⟨s.map fun c ↦ [c], ?_, (List.flatMap_singleton' s).symm⟩
  intro w hw
  obtain ⟨c, hc, rfl⟩ := List.mem_map.mp hw
  exact (asciiLower_of_space (hs c hc)).2.1

/-- What the scanners take for `dca=esi` is that in lower case, with ASCII white space around it. -/
theorem padded_of_isDcaEsi {element : Bytes} (h : isDcaEsi (trimHeaderSpace element) = true) :
    isASCII element = true ∧ 0x2c ∉ element ∧
      Padded (element.map asciiLower) (lit "dca=esi") := by
  let a := element.takeWhile mesiIsHeaderSpace
  let rest := element.dropWhile mesiIsHeaderSpace
  let b := (rest.reverse.takeWhile mesiIsHeaderSpace).reverse
  let inner := trimHeaderSpace element
  have hrest : rest = inner ++ b := by
    have hrev := List.takeWhile_append_dropWhile (p := mesiIsHeaderSpace) (l := rest.reverse)
    rw [← List.reverse_inj, List.reverse_append, List.reverse_reverse] at hrev
    exact hrev.symm
  have helement : element = a ++ inner ++ b := by
    rw [List.append_assoc, ← hrest]
    exact List.takeWhile_append_dropWhile.symm
  have ha : ∀ c ∈ a, mesiIsHeaderSpace c = true := fun c hc ↦ List.mem_takeWhile_imp hc
  have hb : ∀ c ∈ b, mesiIsHeaderSpace c = true := by
    intro c hc
    exact List.mem_takeWhile_imp (List.mem_reverse.mp hc)
  have hinner : inner.map asciiLower = lit "dca=esi" := by
    rw [isDcaEsi, Bool.and_eq_true, decide_eq_true_iff, strncasecmpEq, decide_eq_true_iff] at h
    rw [← h.1, List.take_length] at h
    exact h.2
  have hinnerByte {c : UInt8} (hc : c ∈ inner) : c < 0x80 ∧ c ≠ 0x2c := by
    have hmem : asciiLower c ∈ inner.map asciiLower := List.mem_map_of_mem hc
    rw [hinner] at hmem
    have hall : ∀ x ∈ lit "dca=esi", x < 0x80 ∧ x ≠ 0x2c := by decide +kernel
    refine ⟨lt_of_asciiLower_lt (hall _ hmem).1, ?_⟩
    rintro rfl
    exact (hall _ hmem).2 rfl
  have hbyte : ∀ c ∈ element, c < 0x80 ∧ c ≠ 0x2c := by
    intro c hc
    rw [helement, List.mem_append, List.mem_append] at hc
    rcases hc with (hc | hc) | hc
    · exact (asciiLower_of_space (ha c hc)).2.2
    · exact hinnerByte hc
    · exact (asciiLower_of_space (hb c hc)).2.2
  have hlower {s : Bytes} (hs : ∀ c ∈ s, mesiIsHeaderSpace c = true) : s.map asciiLower = s := by
    conv_rhs => rw [← List.map_id s]
    exact List.map_congr_left fun c hc ↦ (asciiLower_of_space (hs c hc)).1
  refine ⟨List.all_eq_true.mpr fun c hc ↦ decide_eq_true (hbyte c hc).1,
    fun hc ↦ (hbyte _ hc).2 rfl, a, b, isSpaces_of_headerSpace ha, isSpaces_of_headerSpace hb, ?_⟩
  rw [helement, List.map_append, List.map_append, hinner, hlower ha, hlower hb]

/-- An element stays an element in lower case. -/
theorem mem_split_toLower {U : Unicode} (hU : LowersASCII U) {value element : Bytes}
    (helement : element ∈ split value 0x2c) (hcomma : 0x2c ∉ toLower U element) :
    toLower U element ∈ split (toLower U value) 0x2c := by
  induction hn : value.length using Nat.strong_induction_on generalizing value with
  | _ n ih =>
    by_cases hmem : (0x2c : UInt8) ∈ value
    · obtain ⟨x, y, rfl, hx⟩ := List.eq_append_cons_of_mem hmem
      rw [split, List.splitOn_append_cons_self, List.splitOn_eq_singleton hx] at helement
      have hlower : asciiLower 0x2c = 0x2c := rfl
      rw [toLower_append_cons hU (by decide), hlower, split, List.splitOn_append_cons_self]
      rcases List.mem_append.mp helement with h | h
      · obtain rfl := List.mem_singleton.mp h
        rw [List.splitOn_eq_singleton hcomma]
        exact List.mem_append_left _ (List.mem_singleton_self _)
      · have hlt : y.length < n := by
          rw [← hn, List.length_append, List.length_cons]
          omega
        exact List.mem_append_right _ (ih y.length hlt h rfl)
    · rw [split, List.splitOn_eq_singleton hmem, List.mem_singleton] at helement
      subst helement
      rw [split, List.splitOn_eq_singleton hcomma]
      exact List.mem_singleton_self _

theorem Nginx.mesiHeaderSignalsEsi_iff (value : Bytes) : mesiHeaderSignalsEsi value = true ↔
    ∃ element ∈ split value 0x2c, isDcaEsi (trimHeaderSpace element) = true := by
  rw [mesiHeaderSignalsEsi]
  split_ifs with hlength
  · obtain rfl := List.length_eq_zero_iff.mp hlength
    refine iff_of_false (by decide) ?_
    rintro ⟨element, hmem, h⟩
    rw [split, List.splitOn_nil, List.mem_singleton] at hmem
    subst hmem
    exact absurd h (by decide)
  · exact scanHeader_iff value

theorem Apache.mesiHeaderSignalsEsi_eq {value : Bytes} (hnul : 0 ∉ value) :
    mesiHeaderSignalsEsi (some value) = Nginx.mesiHeaderSignalsEsi value := by
  rw [mesiHeaderSignalsEsi, scanHeader_eq hnul, Bool.eq_iff_iff, Nginx.scanHeader_iff,
    Nginx.mesiHeaderSignalsEsi_iff]

theorem Nginx.mesiHeaderSignalsEsi_dcaEsi : mesiHeaderSignalsEsi (lit "dca=esi") = true :=
  (mesiHeaderSignalsEsi_iff _).mpr ⟨lit "dca=esi", by decide, by decide⟩

theorem marksEsi_of_scanner {U : Unicode} (hU : LowersASCII U) {value : Bytes}
    (h : Nginx.mesiHeaderSignalsEsi value = true) : MarksEsi U value := by
  obtain ⟨element, hmem, hdca⟩ := (Nginx.mesiHeaderSignalsEsi_iff value).mp h
  obtain ⟨hascii, hcomma, hpadded⟩ := padded_of_isDcaEsi hdca
  have hlower : toLower U element = element.map asciiLower := toLower_of_isASCII U hascii
  have hcomma' : 0x2c ∉ toLower U element := by
    rw [hlower, List.mem_map]
    rintro ⟨c, hc, heq⟩
    exact hcomma (asciiLower_eq_comma heq ▸ hc)
  exact ⟨_, mem_split_toLower hU hmem hcomma', hlower ▸ hpadded⟩

/-! ## Where they agree -/

/-- The four give the same verdict on a response. -/
def VerdictsAgree (U : Unicode) (response : HttpResponse) : Prop :=
  Nginx.mesiHeaderSignalsEsi (response.header.get (lit "Edge-control")) =
      isEsiResponse U response ∧
    Apache.mesiHeaderSignalsEsi (some (response.header.get (lit "Edge-control"))) =
      isEsiResponse U response ∧
    Proxy.signalsEsi response.header = isEsiResponse U response

/-- **Main result.** The four agree on the value `dca=esi` and on those the core finds no mark in,
and on no other. -/
theorem verdictsAgree_iff {U : Unicode} (hU : LowersASCII U) {response : HttpResponse}
    (hnul : 0 ∉ response.header.get (lit "Edge-control")) :
    VerdictsAgree U response ↔ response.header.get (lit "Edge-control") = lit "dca=esi" ∨
      ¬ MarksEsi U (response.header.get (lit "Edge-control")) := by
  rw [VerdictsAgree, Apache.mesiHeaderSignalsEsi_eq hnul, Proxy.signalsEsi]
  have hcore := isEsiResponse_iff U response
  generalize response.header.get (lit "Edge-control") = value at *
  constructor
  · rintro ⟨-, -, hproxy⟩
    by_cases hmarks : MarksEsi U value
    · rw [hcore.mpr hmarks, decide_eq_true_iff] at hproxy
      exact .inl hproxy
    · exact .inr hmarks
  · intro h
    have hscanner (h : Nginx.mesiHeaderSignalsEsi value = true) : MarksEsi U value :=
      marksEsi_of_scanner hU h
    by_cases hmarks : MarksEsi U value
    · obtain rfl : value = lit "dca=esi" := h.resolve_right (not_not.mpr hmarks)
      rw [hcore.mpr hmarks, Nginx.mesiHeaderSignalsEsi_dcaEsi]
      exact ⟨rfl, rfl, rfl⟩
    · have hne : value ≠ lit "dca=esi" := by
        rintro rfl
        exact hmarks (hscanner Nginx.mesiHeaderSignalsEsi_dcaEsi)
      have hfalse : isEsiResponse U response = false := by
        rw [Bool.eq_false_iff]
        exact fun h ↦ hmarks (hcore.mp h)
      have hnginx : Nginx.mesiHeaderSignalsEsi value = false := by
        rw [Bool.eq_false_iff]
        exact fun h ↦ hmarks (hscanner h)
      rw [hfalse, hnginx, decide_eq_false hne]
      exact ⟨rfl, rfl, rfl⟩

theorem lowersASCII_ascii : LowersASCII .ascii := by
  intro b hb
  have hlt : b.toNat < 0x80 := UInt8.lt_iff_toNat_lt.mp hb
  rw [Unicode.ascii]
  simp [hlt]

/-- A response with an `Edge-control` field. -/
def edgeControlResponse (value : Bytes) : HttpResponse where
  status := 200
  header := AList.singleton (lit "Edge-Control") [value]
  body := []

/-- No element of `max-age=60` is a mark, and nobody finds one. -/
theorem verdictsAgree_iff_maxAge : LowersASCII .ascii ∧
    VerdictsAgree .ascii (edgeControlResponse (lit "max-age=60")) :=
  ⟨lowersASCII_ascii, (verdictsAgree_iff lowersASCII_ascii (by decide)).mpr
    (.inr ((isEsiResponse_iff _ _).not.mp (by decide)))⟩

/-- The proxy does not see the mark in a list of two elements. -/
theorem not_verdictsAgree : ¬ ∀ (U : Unicode) (response : HttpResponse), LowersASCII U →
    0 ∉ response.header.get (lit "Edge-control") → VerdictsAgree U response := by
  intro h
  have hagree := h .ascii (edgeControlResponse (lit "max-age=60, dca=esi")) lowersASCII_ascii
    (by decide)
  have hproxy : false = isEsiResponse .ascii (edgeControlResponse (lit "max-age=60, dca=esi")) :=
    hagree.2.2
  exact absurd hproxy (by decide)

end GoMesi
