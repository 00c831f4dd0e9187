import GoMesi.Mesi.CacheKey
import GoMesi.Mesi.Markup
import GoMesi.Mesi.Simulate
import GoMesi.Mesi.TagSearch

/-!
# Cache key templates

`cache_key_template.go`: a template is scanned once from left to right, and every group `${…}` up to
the first closing brace is replaced by the URL, by a header or by a cookie, or stays as it is. What is
put in is not looked at again.

A header is looked up under its canonical name, then under the name as it is written, and last under
the least key that is the same up to case. Go ranges over a map in any order, and in another one each
time, so that the loop that looks for the least key is given an order here for every group.
-/

namespace GoMesi

open Strings

namespace CacheKeyTemplate

/-- An `*http.Request`, as far as a template refers to it: the header, and the names and values that
`Cookies` returns. -/
structure Request where
  header : Header := ∅
  cookies : List (Bytes × Bytes) := []

/-! ## The code -/

/-- `firstHeaderValue` of an entry, which is empty if there is none. -/
def firstHeaderValue (h : Header) (key : Bytes) : Option Bytes :=
  match h.lookup key with
  | some (v :: _) => some v
  | _ => none

/-- The loop of `requestHeaderValue` over the keys of the header. -/
def matchedKey (U : Unicode) (name : Bytes) (keys : List Bytes) : Option Bytes :=
  keys.foldl
    (fun matched key ↦
      if ¬ equalFold U key name then matched
      else
        match matched with
        | none => some key
        | some least => if key < least then some key else some least)
    none

variable (U : Unicode)

/-- `requestHeaderValue`, where `order` is the order in which the map is ranged over. -/
def requestHeaderValue (order : List Bytes) (r : Option Request) (name : Bytes) : Option Bytes :=
  match r with
  | none => none
  | some r =>
    if name = [] then none
    else
      match [canonicalMIMEHeaderKey name, name].findSome?
          fun key ↦ if key = [] then none else firstHeaderValue r.header key with
      | some v => some v
      | none =>
        match matchedKey U name order with
        | none => none
        | some matched => firstHeaderValue r.header matched

/-- The loop of `requestCookieValue` over the cookies whose name is the same up to case. -/
def matchedCookie (name : Bytes) (cookies : List (Bytes × Bytes)) : Option (Bytes × Bytes) :=
  cookies.foldl
    (fun matched c ↦
      if ¬ equalFold U c.1 name then matched
      else
        match matched with
        | none => some c
        | some least => if c.1 < least.1 then some c else some least)
    none

/-- `requestCookieValue` -/
def requestCookieValue (r : Option Request) (name : Bytes) : Option Bytes :=
  match r with
  | none => none
  | some r =>
    if name = [] then none
    else
      match r.cookies.find? (·.1 = name) with
      | some c => some c.2
      | none => (matchedCookie U name r.cookies).map Prod.snd

/-- `cacheKeyPlaceholder` -/
def cacheKeyPlaceholder (order : List Bytes) (url name : Bytes) (r : Option Request) :
    Option Bytes :=
  if name = lit "url" then some url
  else if hasPrefix name (lit "header:") then
    requestHeaderValue U order r (name.drop (lit "header:").length)
  else if hasPrefix name (lit "cookie:") then
    requestCookieValue U r (name.drop (lit "cookie:").length)
  else none

/-- The loop of `BuildCacheKey`, which resolves its `i`-th group with `resolve i`. Every round takes
three bytes or more from the rest of the template. -/
def buildLoop (resolve : ℕ → Bytes → Option Bytes) : (fuel i : ℕ) → (rest : Bytes) → Bytes
  | 0, _, rest => rest
  | fuel + 1, i, rest =>
    match index rest (lit "$\x7b") with
    | none => rest
    | some start =>
      let before := rest.take start
      let rest := rest.drop start
      match index (rest.drop 2) (lit "\x7d") with
      | none => before ++ rest
      | some n =>
        let stop := n + 2
        before ++ (resolve i (slice rest 2 stop)).getD (rest.take (stop + 1)) ++
          buildLoop resolve fuel (i + 1) (rest.drop (stop + 1))

/-- `BuildCacheKey`, where `order i` is the order for the `i`-th group. -/
def buildCacheKey (order : ℕ → List Bytes) (url template : Bytes) (r : Option Request) : Bytes :=
  if ¬ contains template (lit "$\x7b") then template
  else
    buildLoop (fun i name ↦ cacheKeyPlaceholder U (order i) url name r) template.length 0 template

/-! ## The meaning of a template -/

/-- The entry of a header has a first value. -/
def HeaderValue (h : Header) (key v : Bytes) : Prop := ∃ more, h.lookup key = some (v :: more)

/-- The least name of those that are the same as `name` up to case. -/
structure LeastFold (names : List Bytes) (name least : Bytes) : Prop where
  mem : least ∈ names
  fold : equalFold U least name = true
  le : ∀ other ∈ names, equalFold U other name = true → ¬ other < least

/-- The value of a header field. -/
inductive HeaderResolves (h : Header) (name : Bytes) : Bytes → Prop
  | canonical {v : Bytes} (hv : HeaderValue h (canonicalMIMEHeaderKey name) v) :
    HeaderResolves h name v
  | exact {v : Bytes} (hcanonical : ∀ w, ¬ HeaderValue h (canonicalMIMEHeaderKey name) w)
    (hv : HeaderValue h name v) : HeaderResolves h name v
  | folded {key v : Bytes} (hcanonical : ∀ w, ¬ HeaderValue h (canonicalMIMEHeaderKey name) w)
    (hexact : ∀ w, ¬ HeaderValue h name w) (hkey : LeastFold U h.keys name key)
    (hv : HeaderValue h key v) : HeaderResolves h name v

/-- The value of a cookie: the first one of the name, or the first one of the least name that is the
same up to case. -/
inductive CookieResolves (cookies : List (Bytes × Bytes)) (name : Bytes) : Bytes → Prop
  | exact {pre post : List (Bytes × Bytes)} {v : Bytes} (hcookies : cookies = pre ++ (name, v) :: post)
    (hpre : ∀ c ∈ pre, c.1 ≠ name) : CookieResolves cookies name v
  | folded {pre post : List (Bytes × Bytes)} {least v : Bytes} (hexact : ∀ c ∈ cookies, c.1 ≠ name)
    (hcookies : cookies = pre ++ (least, v) :: post) (hpre : ∀ c ∈ pre, c.1 ≠ least)
    (hleast : LeastFold U (cookies.map Prod.fst) name least) : CookieResolves cookies name v

/-- What a placeholder stands for. -/
inductive Resolves (url : Bytes) : Option Request → Bytes → Bytes → Prop
  | url {r : Option Request} : Resolves url r (lit "url") url
  | header {r : Request} {name v : Bytes} (hname : name ≠ [])
    (h : HeaderResolves U r.header name v) : Resolves url (some r) (lit "header:" ++ name) v
  | cookie {r : Request} {name v : Bytes} (hname : name ≠ [])
    (h : CookieResolves U r.cookies name v) : Resolves url (some r) (lit "cookie:" ++ name) v

/-- A template and the key it gives. The text up to the first group is kept, and the rest of the
template is evaluated by itself. -/
inductive Evaluates (resolves : Bytes → Bytes → Prop) : Bytes → Bytes → Prop
  | literal {s : Bytes} (hs : ¬ lit "$\x7b" <:+: s) : Evaluates resolves s s
  | unterminated {pre rest : Bytes} (hpre : ¬ lit "$\x7b" <:+: pre) (hrest : 0x7d ∉ rest) :
    Evaluates resolves (pre ++ lit "$\x7b" ++ rest) (pre ++ lit "$\x7b" ++ rest)
  | value {pre name rest v out : Bytes} (hpre : ¬ lit "$\x7b" <:+: pre) (hname : 0x7d ∉ name)
    (hv : resolves name v) (h : Evaluates resolves rest out) :
    Evaluates resolves (pre ++ lit "$\x7b" ++ name ++ lit "\x7d" ++ rest) (pre ++ v ++ out)
  | kept {pre name rest out : Bytes} (hpre : ¬ lit "$\x7b" <:+: pre) (hname : 0x7d ∉ name)
    (hnone : ∀ v, ¬ resolves name v) (h : Evaluates resolves rest out) :
    Evaluates resolves (pre ++ lit "$\x7b" ++ name ++ lit "\x7d" ++ rest)
      (pre ++ lit "$\x7b" ++ name ++ lit "\x7d" ++ out)

/-! ## The least of the keys that match -/

/-- One round of the two loops: an element that satisfies `p` is kept if its key is less than that of
the element kept so far. -/
def keepLeast {α : Type} (p : α → Bool) (key : α → Bytes) (matched : Option α) (c : α) : Option α :=
  if ¬ p c then matched
  else
    match matched with
    | none => some c
    | some least => if key c < key least then some c else some least

section KeepLeast

variable {α : Type} {p : α → Bool} {key : α → Bytes}

theorem keepLeast_of_not {matched : Option α} {c : α} (h : p c = false) :
    keepLeast p key matched c = matched := by
  rw [keepLeast.eq_def, if_pos (by simp [h])]

/-- What is kept is the first of the elements with the least key. -/
theorem foldl_keepLeast (xs : List α) :
    (xs.foldl (keepLeast p key) none = none ∧ ∀ c ∈ xs, p c = false) ∨
      ∃ c pre post, xs.foldl (keepLeast p key) none = some c ∧ xs = pre ++ c :: post ∧ p c = true ∧
        (∀ d ∈ pre, p d = true → key c < key d) ∧ ∀ d ∈ post, p d = true → ¬ key d < key c := by
  induction xs using List.reverseRecOn with
  | nil => exact .inl ⟨rfl, by simp⟩
  | append_singleton xs x ih =>
    rw [List.foldl_append, List.foldl_cons, List.foldl_nil]
    cases hx : p x with
    | false =>
      rw [keepLeast_of_not hx]
      rcases ih with ⟨hnone, hall⟩ | ⟨c, pre, post, hc, rfl, hpc, hpre, hpost⟩
      · left
        refine ⟨hnone, fun d hd ↦ ?_⟩
        rcases List.mem_append.mp hd with hd | hd
        · exact hall d hd
        · rwa [List.mem_singleton.mp hd]
      · right
        refine ⟨c, pre, post ++ [x], hc, by simp, hpc, hpre, fun d hd hpd ↦ ?_⟩
        rcases List.mem_append.mp hd with hd | hd
        · exact hpost d hd hpd
        · rw [List.mem_singleton.mp hd, hx] at hpd
          exact absurd hpd Bool.false_ne_true
    | true =>
      right
      rw [keepLeast.eq_def, if_neg (by simp [hx])]
      rcases ih with ⟨hnone, hall⟩ | ⟨c, pre, post, hc, rfl, hpc, hpre, hpost⟩
      · refine ⟨x, xs, [], by rw [hnone], rfl, hx, fun d hd hpd ↦ ?_, by simp⟩
        rw [hall d hd] at hpd
        exact absurd hpd Bool.false_ne_true
      · rw [hc]
        by_cases hlt : key x < key c
        · refine ⟨x, pre ++ c :: post, [], if_pos hlt, rfl, hx, fun d hd hpd ↦ ?_, by simp⟩
          -- every element before has a key that is not less than that of `c`
          rcases List.mem_append.mp hd with hd | hd
          · exact List.lt_trans hlt (hpre d hd hpd)
          · rcases List.mem_cons.mp hd with rfl | hd
            · exact hlt
            · exact Std.lt_of_lt_of_le hlt (List.not_lt.mp (hpost d hd hpd))
        · refine ⟨c, pre, post ++ [x], if_neg hlt, by simp, hpc, hpre, fun d hd hpd ↦ ?_⟩
          rcases List.mem_append.mp hd with hd | hd
          · exact hpost d hd hpd
          · rwa [List.mem_singleton.mp hd]

/-- The first element of a key. -/
theorem first_of_key_unique {α β : Type} {key : α → β} {c d : α} {pre post pre' post' : List α}
    (hkey : key d = key c) (h : pre ++ d :: post = pre' ++ c :: post')
    (hpre : ∀ e ∈ pre, key e ≠ key d) (hpre' : ∀ e ∈ pre', key e ≠ key c) : d = c := by
  rcases List.append_eq_append_iff.mp h with ⟨as, rfl, hrest⟩ | ⟨as, rfl, hrest⟩
  · cases as with
    | nil => exact (List.cons.inj hrest).1
    | cons a as =>
      obtain ⟨rfl, -⟩ := List.cons.inj hrest
      exact absurd hkey (hpre' d (by simp))
  · cases as with
    | nil => exact (List.cons.inj hrest).1.symm
    | cons a as =>
      obtain ⟨rfl, -⟩ := List.cons.inj hrest
      exact absurd hkey.symm (hpre c (by simp))

end KeepLeast

theorem matchedKey_eq (name : Bytes) (keys : List Bytes) : matchedKey U name keys =
    keys.foldl (keepLeast (fun key ↦ equalFold U key name) id) none := by
  rw [matchedKey]
  congr 1
  funext matched key
  cases matched <;> rfl

theorem matchedCookie_eq (name : Bytes) (cookies : List (Bytes × Bytes)) :
    matchedCookie U name cookies =
      cookies.foldl (keepLeast (fun c ↦ equalFold U c.1 name) Prod.fst) none := by
  rw [matchedCookie]
  congr 1
  funext matched c
  cases matched <;> rfl

variable {U}

theorem LeastFold.unique {names : List Bytes} {name least least' : Bytes}
    (h : LeastFold U names name least) (h' : LeastFold U names name least') : least = least' := by
  apply List.le_antisymm
  · exact List.not_lt.mp (h.le least' h'.mem h'.fold)
  · exact List.not_lt.mp (h'.le least h.mem h.fold)

/-- Which names there are decides, and not in which order they are. -/
theorem LeastFold.perm {names names' : List Bytes} {name least : Bytes} (hperm : names.Perm names')
    (h : LeastFold U names name least) : LeastFold U names' name least where
  mem := hperm.mem_iff.mp h.mem
  fold := h.fold
  le := fun other hother ↦ h.le other (hperm.mem_iff.mpr hother)

theorem matchedKey_eq_some_iff {name key : Bytes} {keys : List Bytes} :
    matchedKey U name keys = some key ↔ LeastFold U keys name key := by
  rw [matchedKey_eq]
  rcases @foldl_keepLeast _ (fun key ↦ equalFold U key name) id keys with
    ⟨hnone, hall⟩ | ⟨c, pre, post, hc, rfl, hfold, hpre, hpost⟩
  · rw [hnone]
    refine iff_of_false nofun fun h ↦ ?_
    exact Bool.false_ne_true ((hall key h.mem).symm.trans h.fold)
  · have hleast : LeastFold U (pre ++ c :: post) name c := by
      refine ⟨by simp, hfold, fun other hother hother' ↦ ?_⟩
      rcases List.mem_append.mp hother with hother | hother
      · exact List.not_lt.mpr (List.le_of_lt (hpre other hother hother'))
      · rcases List.mem_cons.mp hother with rfl | hother
        · exact List.lt_irrefl _
        · exact hpost other hother hother'
    rw [hc, Option.some_inj]
    constructor
    · rintro rfl
      exact hleast
    · exact fun h ↦ hleast.unique h

/-- The cookie that the loop finds is the first one of the least name. -/
theorem matchedCookie_eq_some_iff {name : Bytes} {c : Bytes × Bytes}
    {cookies : List (Bytes × Bytes)} : matchedCookie U name cookies = some c ↔
      LeastFold U (cookies.map Prod.fst) name c.1 ∧
        ∃ pre post, cookies = pre ++ c :: post ∧ ∀ d ∈ pre, d.1 ≠ c.1 := by
  rw [matchedCookie_eq]
  rcases @foldl_keepLeast _ (fun c ↦ equalFold U c.1 name) Prod.fst cookies with
    ⟨hnone, hall⟩ | ⟨d, pre, post, hd, hcookies, hfold, hpre, hpost⟩
  · rw [hnone]
    refine iff_of_false nofun fun h ↦ ?_
    obtain ⟨d, hd, hdc⟩ := List.mem_map.mp h.1.mem
    exact Bool.false_ne_true ((hall d hd).symm.trans (hdc ▸ h.1.fold))
  · have hleast : LeastFold U (cookies.map Prod.fst) name d.1 := by
      refine ⟨List.mem_map_of_mem (by simp [hcookies]), hfold, fun other hother hother' ↦ ?_⟩
      obtain ⟨e, he, rfl⟩ := List.mem_map.mp hother
      rw [hcookies] at he
      rcases List.mem_append.mp he with he | he
      · exact List.not_lt.mpr (List.le_of_lt (hpre e he hother'))
      · rcases List.mem_cons.mp he with rfl | he
        · exact List.lt_irrefl _
        · exact hpost e he hother'
    -- a cookie of the same name that comes before would have been kept
    have hfirst : ∀ e ∈ pre, e.1 ≠ d.1 := by
      intro e he hed
      have hlt := hpre e he (by rw [hed]; exact hfold)
      rw [hed] at hlt
      exact List.lt_irrefl _ hlt
    rw [hd, Option.some_inj]
    constructor
    · rintro rfl
      exact ⟨hleast, pre, post, hcookies, hfirst⟩
    · rintro ⟨hc, pre', post', hcookies', hfirst'⟩
      exact first_of_key_unique (hleast.unique hc) (hcookies.symm.trans hcookies') hfirst hfirst'

/-! ## What a placeholder is replaced by -/

theorem firstHeaderValue_eq_some_iff {h : Header} {key v : Bytes} :
    firstHeaderValue h key = some v ↔ HeaderValue h key v := by
  rw [firstHeaderValue, HeaderValue]
  constructor
  · intro hv
    split at hv
    · rename_i w more hlookup
      exact ⟨more, by rw [hlookup, Option.some.inj hv]⟩
    · exact absurd hv (by simp)
  · rintro ⟨more, hlookup⟩
    rw [hlookup]

theorem firstHeaderValue_eq_none_iff {h : Header} {key : Bytes} :
    firstHeaderValue h key = none ↔ ∀ v, ¬ HeaderValue h key v := by
  rw [Option.eq_none_iff_forall_ne_some]
  exact forall_congr' fun v ↦ not_congr firstHeaderValue_eq_some_iff

theorem canonicalMIMEHeaderKey_ne_nil {s : Bytes} (hs : s ≠ []) : canonicalMIMEHeaderKey s ≠ [] := by
  rw [canonicalMIMEHeaderKey]
  split_ifs
  · cases s with
    | nil => exact absurd rfl hs
    | cons b s => exact List.cons_ne_nil _ _
  · exact hs

/-- The value is found whatever the order of the keys is. -/
theorem requestHeaderValue_eq_some_iff {r : Request} {order : List Bytes} {name v : Bytes}
    (horder : order.Perm r.header.keys) (hname : name ≠ []) :
    requestHeaderValue U order (some r) name = some v ↔ HeaderResolves U r.header name v := by
  have hfind : ([canonicalMIMEHeaderKey name, name].findSome?
      fun key ↦ if key = [] then none else firstHeaderValue r.header key) =
        (firstHeaderValue r.header (canonicalMIMEHeaderKey name)).or
          (firstHeaderValue r.header name) := by
    rw [List.findSome?_cons, List.findSome?_cons, List.findSome?_nil,
      if_neg (canonicalMIMEHeaderKey_ne_nil hname), if_neg hname]
    cases firstHeaderValue r.header (canonicalMIMEHeaderKey name) <;>
      cases firstHeaderValue r.header name <;> rfl
  rw [requestHeaderValue]
  rw [if_neg hname, hfind]
  cases hcanonical : firstHeaderValue r.header (canonicalMIMEHeaderKey name) with
  | some w =>
    have hw := firstHeaderValue_eq_some_iff.mp hcanonical
    constructor
    · intro h
      exact .canonical (Option.some.inj h ▸ hw)
    · rintro (hv | ⟨hno, -⟩ | ⟨hno, -⟩)
      · exact hcanonical.symm.trans (firstHeaderValue_eq_some_iff.mpr hv)
      · exact absurd hw (hno w)
      · exact absurd hw (hno w)
  | none =>
    have hno := firstHeaderValue_eq_none_iff.mp hcanonical
    cases hexact : firstHeaderValue r.header name with
    | some w =>
      have hw := firstHeaderValue_eq_some_iff.mp hexact
      constructor
      · intro h
        exact .exact hno (Option.some.inj h ▸ hw)
      · rintro (hv | ⟨-, hv⟩ | ⟨-, hno', -⟩)
        · exact absurd hv (hno v)
        · exact hexact.symm.trans (firstHeaderValue_eq_some_iff.mpr hv)
        · exact absurd hw (hno' w)
    | none =>
      have hno' := firstHeaderValue_eq_none_iff.mp hexact
      dsimp only [Option.or]
      cases hmatched : matchedKey U name order with
      | none =>
        refine iff_of_false nofun ?_
        rintro (hv | ⟨-, hv⟩ | ⟨-, -, hkey, -⟩)
        · exact hno v hv
        · exact hno' v hv
        · rw [matchedKey_eq_some_iff.mpr (hkey.perm horder.symm)] at hmatched
          exact Option.some_ne_none _ hmatched
      | some key =>
        have hkey := (matchedKey_eq_some_iff.mp hmatched).perm horder
        dsimp only
        rw [firstHeaderValue_eq_some_iff]
        constructor
        · exact fun hv ↦ .folded hno hno' hkey hv
        · rintro (hv | ⟨-, hv⟩ | ⟨-, -, hkey', hv⟩)
          · exact absurd hv (hno v)
          · exact absurd hv (hno' v)
          · rwa [hkey.unique hkey']

theorem requestCookieValue_eq_some_iff {r : Request} {name v : Bytes} (hname : name ≠ []) :
    requestCookieValue U (some r) name = some v ↔ CookieResolves U r.cookies name v := by
  rw [requestCookieValue]
  rw [if_neg hname]
  cases hfind : r.cookies.find? (·.1 = name) with
  | some c =>
    obtain ⟨hc, pre, post, hcookies, hpre⟩ := List.find?_eq_some_iff_append.mp hfind
    have hname : c.1 = name := by simpa using hc
    have hfirst : ∀ d ∈ pre, d.1 ≠ c.1 := by
      intro d hd
      rw [hname]
      simpa using hpre d hd
    constructor
    · intro h
      refine @CookieResolves.exact _ _ _ pre post v ?_ (hname ▸ hfirst)
      rw [hcookies, ← hname, ← Option.some.inj h]
    · rintro (⟨hcookies', hpre'⟩ | ⟨hno, -, -⟩)
      · have heq := first_of_key_unique (c := (name, v)) hname (hcookies.symm.trans hcookies') hfirst
          hpre'
        rw [heq]
      · exact absurd hname (hno c (by simp [hcookies]))
  | none =>
    have hno : ∀ c ∈ r.cookies, c.1 ≠ name := by
      simpa using List.find?_eq_none.mp hfind
    rw [Option.map_eq_some_iff]
    constructor
    · rintro ⟨⟨least, w⟩, hmatched, rfl⟩
      obtain ⟨hleast, pre, post, hcookies, hpre⟩ := matchedCookie_eq_some_iff.mp hmatched
      exact .folded hno hcookies hpre hleast
    · rintro (⟨hcookies, -⟩ | ⟨-, hcookies, hpre, hleast⟩)
      · exact absurd rfl (hno (name, v) (by simp [hcookies]))
      · exact ⟨(_, v), matchedCookie_eq_some_iff.mpr ⟨hleast, _, _, hcookies, hpre⟩, rfl⟩

theorem resolves_iff {url name v : Bytes} {r : Option Request} : Resolves U url r name v ↔
    (name = lit "url" ∧ v = url) ∨
      (∃ r' field, r = some r' ∧ name = lit "header:" ++ field ∧ field ≠ [] ∧
        HeaderResolves U r'.header field v) ∨
      ∃ r' field, r = some r' ∧ name = lit "cookie:" ++ field ∧ field ≠ [] ∧
        CookieResolves U r'.cookies field v := by
  constructor
  · rintro (_ | ⟨hname, h⟩ | ⟨hname, h⟩)
    · exact .inl ⟨rfl, rfl⟩
    · exact .inr (.inl ⟨_, _, rfl, rfl, hname, h⟩)
    · exact .inr (.inr ⟨_, _, rfl, rfl, hname, h⟩)
  · rintro (⟨rfl, rfl⟩ | ⟨r', field, rfl, rfl, hname, h⟩ | ⟨r', field, rfl, rfl, hname, h⟩)
    · exact .url
    · exact .header hname h
    · exact .cookie hname h

/-- A name of one kind is not of another one. -/
theorem header_append_ne (field : Bytes) : lit "header:" ++ field ≠ lit "url" := by
  intro h
  have hhead := congrArg List.head? h
  rw [List.head?_append_of_ne_nil _ (by decide)] at hhead
  exact absurd hhead (by decide)

theorem cookie_append_ne (field : Bytes) : lit "cookie:" ++ field ≠ lit "url" := by
  intro h
  have hhead := congrArg List.head? h
  rw [List.head?_append_of_ne_nil _ (by decide)] at hhead
  exact absurd hhead (by decide)

theorem cookie_append_ne_header_append (field field' : Bytes) :
    lit "cookie:" ++ field ≠ lit "header:" ++ field' := by
  intro h
  have hhead := congrArg List.head? h
  rw [List.head?_append_of_ne_nil _ (by decide), List.head?_append_of_ne_nil _ (by decide)] at hhead
  exact absurd hhead (by decide)

theorem requestHeaderValue_eq_some {r : Option Request} {order : List Bytes} {field v : Bytes}
    (horder : ∀ r' ∈ r, order.Perm r'.header.keys) :
    requestHeaderValue U order r field = some v ↔
      ∃ r', r = some r' ∧ field ≠ [] ∧ HeaderResolves U r'.header field v := by
  cases r with
  | none => simp [requestHeaderValue]
  | some r =>
    by_cases hfield : field = []
    · simp [requestHeaderValue, hfield]
    · rw [requestHeaderValue_eq_some_iff (horder r rfl) hfield]
      simp [hfield]

theorem requestCookieValue_eq_some {r : Option Request} {field v : Bytes} :
    requestCookieValue U r field = some v ↔
      ∃ r', r = some r' ∧ field ≠ [] ∧ CookieResolves U r'.cookies field v := by
  cases r with
  | none => simp [requestCookieValue]
  | some r =>
    by_cases hfield : field = []
    · simp [requestCookieValue, hfield]
    · rw [requestCookieValue_eq_some_iff hfield]
      simp [hfield]

/-- The switch finds what the name stands for. -/
theorem cacheKeyPlaceholder_eq_some_iff {order : List Bytes} {url name v : Bytes}
    {r : Option Request} (horder : ∀ r' ∈ r, order.Perm r'.header.keys) :
    cacheKeyPlaceholder U order url name r = some v ↔ Resolves U url r name v := by
  rw [cacheKeyPlaceholder, resolves_iff]
  by_cases hurl : name = lit "url"
  · rw [if_pos hurl, Option.some_inj]
    constructor
    · rintro rfl
      exact .inl ⟨hurl, rfl⟩
    · rintro (⟨-, rfl⟩ | ⟨r', field, -, hname, -⟩ | ⟨r', field, -, hname, -⟩)
      · rfl
      · exact absurd (hname.symm.trans hurl) (header_append_ne field)
      · exact absurd (hname.symm.trans hurl) (cookie_append_ne field)
  rw [if_neg hurl]
  by_cases hheader : hasPrefix name (lit "header:") = true
  · rw [if_pos hheader]
    obtain ⟨field, rfl⟩ := hasPrefix_iff.mp hheader
    rw [List.drop_left, requestHeaderValue_eq_some horder]
    constructor
    · rintro ⟨r', hr, hfield, h⟩
      exact .inr (.inl ⟨r', field, hr, rfl, hfield, h⟩)
    · rintro (⟨hname, -⟩ | ⟨r', field', hr, hname, hfield, h⟩ | ⟨r', field', -, hname, -⟩)
      · exact absurd hname hurl
      · rw [← List.append_cancel_left hname] at hfield h
        exact ⟨r', hr, hfield, h⟩
      · exact absurd hname.symm (cookie_append_ne_header_append _ _)
  rw [if_neg hheader]
  by_cases hcookie : hasPrefix name (lit "cookie:") = true
  · rw [if_pos hcookie]
    obtain ⟨field, rfl⟩ := hasPrefix_iff.mp hcookie
    rw [List.drop_left, requestCookieValue_eq_some]
    constructor
    · rintro ⟨r', hr, hfield, h⟩
      exact .inr (.inr ⟨r', field, hr, rfl, hfield, h⟩)
    · rintro (⟨hname, -⟩ | ⟨r', field', -, hname, -⟩ | ⟨r', field', hr, hname, hfield, h⟩)
      · exact absurd hname hurl
      · exact absurd hname (cookie_append_ne_header_append _ _)
      · rw [← List.append_cancel_left hname] at hfield h
        exact ⟨r', hr, hfield, h⟩
  rw [if_neg hcookie]
  refine iff_of_false nofun ?_
  rintro (⟨hname, -⟩ | ⟨r', field, -, hname, -⟩ | ⟨r', field, -, hname, -⟩)
  · exact hurl hname
  · exact hheader (hasPrefix_iff.mpr ⟨field, hname.symm⟩)
  · exact hcookie (hasPrefix_iff.mpr ⟨field, hname.symm⟩)

/-! ## The loop -/

theorem lit_open : lit "$\x7b" = [0x24, 0x7b] := by decide

theorem lit_close : lit "\x7d" = [0x7d] := by decide

/-- The first group of a template starts after the text that has none. -/
theorem index_open {pre : Bytes} (hpre : ¬ lit "$\x7b" <:+: pre) (rest : Bytes) :
    index (pre ++ lit "$\x7b" ++ rest) (lit "$\x7b") = some pre.length := by
  have hself : index (lit "$\x7b" ++ rest) (lit "$\x7b") = some 0 :=
    index_eq_zero_iff.mpr (List.prefix_append _ _)
  rw [List.append_assoc, index_append, hself, Option.map_some, Nat.zero_add]
  intro i hi hstart
  rw [List.drop_append_of_le_length hi.le] at hstart
  rcases Nat.lt_or_ge (i + 1) pre.length with hlt | hge
  · -- both bytes are in the text before
    refine hpre (List.IsPrefix.isInfix ?_ |>.trans (List.drop_suffix i pre).isInfix)
    refine List.prefix_of_prefix_length_le hstart (List.prefix_append _ _) ?_
    rw [List.length_drop, lit_open]
    simp only [List.length_cons, List.length_nil]
    omega
  · -- the dollar sign would be followed by the one of the group
    obtain ⟨b, hb⟩ : ∃ b, pre.drop i = [b] := by
      rw [← List.length_eq_one_iff, List.length_drop]
      omega
    rw [hb, lit_open] at hstart
    simp at hstart

variable {resolve : ℕ → Bytes → Option Bytes}

theorem buildLoop_literal {fuel i : ℕ} {s : Bytes} (hs : ¬ lit "$\x7b" <:+: s) :
    buildLoop resolve fuel i s = s := by
  cases fuel with
  | zero => rfl
  | succ fuel => rw [buildLoop, index_eq_none_iff.mpr hs]

theorem buildLoop_unterminated {fuel i : ℕ} {pre rest : Bytes} (hpre : ¬ lit "$\x7b" <:+: pre)
    (hrest : 0x7d ∉ rest) :
    buildLoop resolve fuel i (pre ++ lit "$\x7b" ++ rest) = pre ++ lit "$\x7b" ++ rest := by
  cases fuel with
  | zero => rfl
  | succ fuel =>
    have hclose : index rest (lit "\x7d") = none := by
      rw [index_eq_none_iff, lit_close, List.singleton_infix_iff]
      exact hrest
    rw [buildLoop, index_open hpre]
    dsimp only
    rw [List.append_assoc, List.take_left, List.drop_left,
      show (lit "$\x7b" ++ rest).drop 2 = rest from rfl, hclose]

/-- A round of the loop, at a group that ends. -/
theorem buildLoop_group {fuel i : ℕ} {pre name rest : Bytes} (hpre : ¬ lit "$\x7b" <:+: pre)
    (hname : 0x7d ∉ name) :
    buildLoop resolve (fuel + 1) i (pre ++ lit "$\x7b" ++ name ++ lit "\x7d" ++ rest) =
      pre ++ (resolve i name).getD (lit "$\x7b" ++ name ++ lit "\x7d") ++
        buildLoop resolve fuel (i + 1) rest := by
  have hshape : pre ++ lit "$\x7b" ++ name ++ lit "\x7d" ++ rest =
      pre ++ (lit "$\x7b" ++ (name ++ 0x7d :: rest)) := by
    simp [lit_close]
  have hclose : index (name ++ 0x7d :: rest) (lit "\x7d") = some name.length :=
    index_byte hname rest
  have hstart := index_open hpre (name ++ 0x7d :: rest)
  rw [List.append_assoc] at hstart
  rw [hshape, buildLoop, hstart]
  dsimp only
  rw [List.take_left, List.drop_left,
    show (lit "$\x7b" ++ (name ++ 0x7d :: rest)).drop 2 = name ++ 0x7d :: rest from rfl, hclose]
  dsimp only
  have hbody : slice (lit "$\x7b" ++ (name ++ 0x7d :: rest)) 2 (name.length + 2) = name := by
    rw [slice, lit_open]
    simp
  have hwhole : lit "$\x7b" ++ (name ++ 0x7d :: rest) =
      lit "$\x7b" ++ name ++ lit "\x7d" ++ rest := by
    simp [lit_close]
  have hlength : (lit "$\x7b" ++ name ++ lit "\x7d").length = name.length + 2 + 1 := by
    rw [lit_open, lit_close]
    simp
  rw [hbody, hwhole, List.take_left' hlength, List.drop_left' hlength]

/-! ## The key -/

/-- A round at a group leaves fuel for the rest. -/
theorem exists_fuel {pre name rest : Bytes} {fuel : ℕ}
    (h : (pre ++ lit "$\x7b" ++ name ++ lit "\x7d" ++ rest).length ≤ fuel) :
    ∃ n, fuel = n + 1 ∧ rest.length ≤ n := by
  simp only [lit_open, lit_close, List.length_append, List.length_cons, List.length_nil] at h
  exact ⟨fuel - 1, by omega, by omega⟩

/-- The loop, with enough fuel, gives what a template evaluates to. -/
theorem buildLoop_of_evaluates {resolves : Bytes → Bytes → Prop} {template out : Bytes}
    (hresolve : ∀ i name v, resolve i name = some v ↔ resolves name v)
    (h : Evaluates resolves template out) {fuel i : ℕ} (hfuel : template.length ≤ fuel) :
    buildLoop resolve fuel i template = out := by
  induction h generalizing fuel i with
  | literal hs => exact buildLoop_literal hs
  | unterminated hpre hrest => exact buildLoop_unterminated hpre hrest
  | value hpre hname hv h ih =>
    obtain ⟨n, rfl, hn⟩ := exists_fuel hfuel
    rw [buildLoop_group hpre hname, (hresolve i _ _).mpr hv, Option.getD_some, ih hn]
  | kept hpre hname hnone h ih =>
    obtain ⟨n, rfl, hn⟩ := exists_fuel hfuel
    have hunresolved := Option.eq_none_iff_forall_ne_some.mpr
      fun v hv ↦ hnone v ((hresolve i _ v).mp hv)
    rw [buildLoop_group hpre hname, hunresolved, Option.getD_none, ih hn]
    simp

/-- A text is free of a byte or is cut at the first one. -/
theorem exists_first_byte (c : UInt8) (s : Bytes) :
    c ∉ s ∨ ∃ before after, s = before ++ c :: after ∧ c ∉ before := by
  by_cases hc : c ∈ s
  · obtain ⟨before, after, rfl, hbefore⟩ := List.eq_append_cons_of_mem hc
    exact .inr ⟨before, after, rfl, hbefore⟩
  · exact .inl hc

/-- A text has no group or is cut where the first one starts. -/
theorem exists_first_group (s : Bytes) : ¬ lit "$\x7b" <:+: s ∨
    ∃ pre rest, s = pre ++ lit "$\x7b" ++ rest ∧ ¬ lit "$\x7b" <:+: pre := by
  induction s with
  | nil => exact .inl (by decide)
  | cons c s ih =>
    by_cases hstart : lit "$\x7b" <+: c :: s
    · obtain ⟨rest, hrest⟩ := hstart
      exact .inr ⟨[], rest, hrest.symm, by decide⟩
    · rcases ih with hno | ⟨pre, rest, rfl, hpre⟩
      · left
        rw [List.infix_cons_iff, not_or]
        exact ⟨hstart, hno⟩
      · right
        refine ⟨c :: pre, rest, rfl, ?_⟩
        rw [List.infix_cons_iff, not_or]
        refine ⟨fun h ↦ hstart (h.trans ?_), hpre⟩
        exact List.cons_prefix_cons.mpr ⟨rfl, by simp⟩

/-- Every template evaluates to something. -/
theorem exists_evaluates (resolves : Bytes → Bytes → Prop) (template : Bytes) :
    ∃ out, Evaluates resolves template out := by
  induction hlength : template.length using Nat.strong_induction_on generalizing template with
  | _ n ih =>
    rcases exists_first_group template with hno | ⟨pre, body, rfl, hpre⟩
    · exact ⟨template, .literal hno⟩
    rcases exists_first_byte 0x7d body with hopen | ⟨name, rest, rfl, hname⟩
    · exact ⟨_, .unterminated hpre hopen⟩
    · obtain ⟨out, hout⟩ := ih rest.length (by rw [← hlength, lit_open]; simp; omega) rest rfl
      rw [show pre ++ lit "$\x7b" ++ (name ++ 0x7d :: rest) =
        pre ++ lit "$\x7b" ++ name ++ lit "\x7d" ++ rest by simp [lit_close]]
      by_cases hv : ∃ v, resolves name v
      · obtain ⟨v, hv⟩ := hv
        exact ⟨_, .value hpre hname hv hout⟩
      · exact ⟨_, .kept hpre hname (fun v h ↦ hv ⟨v, h⟩) hout⟩

/-- **Main result.** `BuildCacheKey` returns what the template evaluates to, in whatever order the
map of the header is ranged over, each time it is. -/
theorem buildCacheKey_iff (U : Unicode) (order : ℕ → List Bytes) (url template : Bytes)
    (r : Option Request) (horder : ∀ r' ∈ r, ∀ i, (order i).Perm r'.header.keys) (out : Bytes) :
    buildCacheKey U order url template r = out ↔ Evaluates (Resolves U url r) template out := by
  have hbuild : ∀ {out}, Evaluates (Resolves U url r) template out →
      buildCacheKey U order url template r = out := by
    intro out h
    have hloop : buildLoop (fun i name ↦ cacheKeyPlaceholder U (order i) url name r)
        template.length 0 template = out := by
      refine buildLoop_of_evaluates (fun i name v ↦ ?_) h le_rfl
      exact cacheKeyPlaceholder_eq_some_iff fun r' hr ↦ horder r' hr i
    rw [buildCacheKey]
    by_cases hcontains : contains template (lit "$\x7b") = true
    · rwa [if_neg (not_not.mpr hcontains)]
    · -- without a group the loop would keep the template as well
      rw [if_pos hcontains]
      rwa [buildLoop_literal (contains_eq_false_iff.mp (Bool.eq_false_iff.mpr hcontains))] at hloop
  constructor
  · rintro rfl
    obtain ⟨out, hout⟩ := exists_evaluates (Resolves U url r) template
    rwa [hbuild hout]
  · exact hbuild

/-- A request with two entries that differ in case only, and values that look like groups. -/
def injecting : Request where
  header := [⟨lit "x-A", [lit "$\x7burl\x7d"]⟩, ⟨lit "x-a", [lit "1"]⟩].toAList
  cookies := [(lit "k", lit "\x7d$\x7b")]

theorem buildCacheKey_injecting : Evaluates
    (Resolves Unicode.ascii (lit "/u") (some injecting))
    (lit "$$\x7bheader:X-a\x7d-$\x7bcookie:k\x7d$\x7burl\x7d$\x7bno\x7d$\x7burl")
    (lit "$$\x7burl\x7d-\x7d$\x7b/u$\x7bno\x7d$\x7burl") := by
  refine (buildCacheKey_iff Unicode.ascii (fun _ ↦ [lit "x-a", lit "x-A"]) (lit "/u") _
    (some injecting) ?_ _).mp (by decide +kernel)
  rintro r' ⟨⟩ i
  exact List.Perm.swap _ _ _

end CacheKeyTemplate

end GoMesi
