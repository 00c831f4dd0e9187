import GoMesi.Go.Utf8
import GoMesi.Mesi.Fetch

/-!
# Cache keys and policies

A cache key is what the key function makes of a URL, followed by the fingerprint of the policy of the
fetch. The key function may return anything, so the fingerprint has to be found from the end: no byte
of it but the first is a vertical bar. From the fingerprint the policy is read back through the JSON
and the base64 it is written in, up to what `hostMatches` makes no difference between.
-/

namespace GoMesi

open Strings

/-! ## Taking strings apart -/

/-- Two strings that end in the same separator and something without it. -/
theorem append_cons_inj {a : UInt8} {x y z w : Bytes} (hz : a ∉ z) (hw : a ∉ w)
    (h : x ++ a :: z = y ++ a :: w) : x = y ∧ z = w := by
  have hrev : z.reverse ++ a :: x.reverse = w.reverse ++ a :: y.reverse := by
    simpa using congrArg List.reverse h
  simp only [List.append_eq_append_iff, List.cons_eq_append_iff, List.cons_eq_cons] at hrev
  rcases hrev with ⟨c, hw', ⟨rfl, -, hx⟩ | ⟨d, rfl, hx⟩⟩ | ⟨c, hz', ⟨rfl, -, hx⟩ | ⟨d, rfl, hx⟩⟩
  · exact ⟨(List.reverse_injective hx).symm, List.reverse_injective (by simpa using hw'.symm)⟩
  · exact absurd (List.mem_reverse.mp (by simp [hw'])) hw
  · exact ⟨List.reverse_injective hx, List.reverse_injective (by simpa using hz')⟩
  · exact absurd (List.mem_reverse.mp (by simp [hz'])) hz

/-- Two strings that begin with something without the separator. -/
theorem append_cons_inj_left {a : UInt8} {x y z w : Bytes} (hx : a ∉ x) (hy : a ∉ y)
    (h : x ++ a :: z = y ++ a :: w) : x = y ∧ z = w := by
  have hrev : z.reverse ++ a :: x.reverse = w.reverse ++ a :: y.reverse := by
    simpa using congrArg List.reverse h
  obtain ⟨hzw, hxy⟩ := append_cons_inj (by simpa using hx) (by simpa using hy) hrev
  exact ⟨List.reverse_injective hxy, List.reverse_injective hzw⟩

/-! ## Base64 -/

theorem base64Digit_inj : ∀ m < 64, ∀ n < 64, base64Digit m = base64Digit n → m = n := by
  decide +kernel

/-- Bytes that the fingerprint uses for itself: quote, comma, bracket, bar. -/
def isMark (b : UInt8) : Bool := b = 0x22 || b = 0x2c || b = 0x5d || b = 0x7c

theorem base64Digit_spec :
    ∀ n < 64, isMark (base64Digit n) = false ∧ base64Digit n ≠ 0x3d := by
  decide +kernel

/-- The number of a group of three bytes. -/
def group (a b c : UInt8) : ℕ := a.toNat * 65536 + b.toNat * 256 + c.toNat

theorem group_lt (a b c : UInt8) : group a b c < 16777216 := by
  have := a.toNat_lt
  have := b.toNat_lt
  have := c.toNat_lt
  rw [group]
  omega

theorem group_inj {a b c a' b' c' : UInt8} (h : group a b c = group a' b' c') :
    a = a' ∧ b = b' ∧ c = c' := by
  have := b.toNat_lt
  have := c.toNat_lt
  have := b'.toNat_lt
  have := c'.toNat_lt
  rw [group, group] at h
  exact ⟨UInt8.toNat_inj.mp (by omega), UInt8.toNat_inj.mp (by omega),
    UInt8.toNat_inj.mp (by omega)⟩

/-- The four digits of a group. -/
def digits (n : ℕ) : Bytes :=
  [base64Digit (n / 262144), base64Digit (n / 4096 % 64), base64Digit (n / 64 % 64),
    base64Digit (n % 64)]

theorem digits_inj {m n : ℕ} (hm : m < 16777216) (hn : n < 16777216) (h : digits m = digits n) :
    m = n := by
  simp only [digits, List.cons.injEq, and_true] at h
  have h₁ := base64Digit_inj _ (by omega) _ (by omega) h.1
  have h₂ := base64Digit_inj _ (by omega) _ (by omega) h.2.1
  have h₃ := base64Digit_inj _ (by omega) _ (by omega) h.2.2.1
  have h₄ := base64Digit_inj _ (by omega) _ (by omega) h.2.2.2
  omega

theorem mem_digits {n : ℕ} (hn : n < 16777216) {b : UInt8} (hb : b ∈ digits n) :
    isMark b = false ∧ b ≠ 0x3d := by
  simp only [digits, List.mem_cons, List.not_mem_nil, or_false] at hb
  rcases hb with rfl | rfl | rfl | rfl <;> exact base64Digit_spec _ (by omega)

theorem base64_cons₃ (a b c : UInt8) (rest : Bytes) :
    base64 (a :: b :: c :: rest) = digits (group a b c) ++ base64 rest := rfl

/-- A last group of two bytes has the digits it would have with a zero byte, up to the padding. -/
theorem base64_pair (a b : UInt8) : base64 [a, b] = (digits (group a b 0)).take 3 ++ [0x3d] := by
  have h₁ : group a b 0 / 262144 = (a.toNat * 256 + b.toNat) / 1024 := by
    simp only [group, UInt8.toNat_zero]
    omega
  have h₂ : group a b 0 / 4096 % 64 = (a.toNat * 256 + b.toNat) / 16 % 64 := by
    simp only [group, UInt8.toNat_zero]
    omega
  have h₃ : group a b 0 / 64 % 64 = (a.toNat * 256 + b.toNat) % 16 * 4 := by
    simp only [group, UInt8.toNat_zero]
    omega
  simp only [digits, h₁, h₂, h₃]
  rfl

theorem base64_singleton (a : UInt8) :
    base64 [a] = (digits (group a 0 0)).take 2 ++ [0x3d, 0x3d] := by
  have h₁ : group a 0 0 / 262144 = a.toNat / 4 := by
    simp only [group, UInt8.toNat_zero]
    omega
  have h₂ : group a 0 0 / 4096 % 64 = a.toNat % 4 * 16 := by
    simp only [group, UInt8.toNat_zero]
    omega
  simp only [digits, h₁, h₂]
  rfl

theorem isMark_of_mem_base64 (s : Bytes) : ∀ x ∈ base64 s, isMark x = false := by
  fun_induction base64 s with
  | case1 a b c rest n ih =>
    intro x hx
    rcases List.mem_append.mp hx with hx | hx
    · exact (mem_digits (group_lt a b c) hx).1
    · exact ih x hx
  | case2 a b n =>
    intro x hx
    have hx : x ∈ base64 [a, b] := hx
    rw [base64_pair] at hx
    rcases List.mem_append.mp hx with hx | hx
    · exact (mem_digits (group_lt a b 0) (List.mem_of_mem_take hx)).1
    · rw [List.mem_singleton.mp hx]
      rfl
  | case3 a =>
    intro x hx
    have hx : x ∈ base64 [a] := hx
    rw [base64_singleton] at hx
    rcases List.mem_append.mp hx with hx | hx
    · exact (mem_digits (group_lt a 0 0) (List.mem_of_mem_take hx)).1
    · rw [show x = 0x3d by simpa using hx]
      rfl
  | case4 => simp

/-- What a string of one, two or at least three bytes is written as: the group it begins with, the
number of digits of the group that are written, and what comes after the group. -/
private theorem base64_cons (a : UInt8) (s : Bytes) : ∃ b c k rest,
    base64 (a :: s) = (digits (group a b c)).take k ++ (List.replicate (4 - k) 0x3d ++ base64 rest) ∧
      ((k = 4 ∧ s = b :: c :: rest) ∨ (k = 3 ∧ s = [b] ∧ c = 0 ∧ rest = []) ∨
        (k = 2 ∧ s = [] ∧ b = 0 ∧ c = 0 ∧ rest = [])) := by
  match s with
  | [] => exact ⟨0, 0, 2, [], base64_singleton a, .inr (.inr ⟨rfl, rfl, rfl, rfl, rfl⟩)⟩
  | [b] => exact ⟨b, 0, 3, [], base64_pair a b, .inr (.inl ⟨rfl, rfl, rfl, rfl⟩)⟩
  | b :: c :: rest => exact ⟨b, c, 4, rest, base64_cons₃ a b c rest, .inl ⟨rfl, rfl⟩⟩

/-- The number of digits before the padding can be seen. -/
private theorem take_digits_inj {m n k l : ℕ} (hk : 2 ≤ k) (hk' : k ≤ 4) (hl : 2 ≤ l) (hl' : l ≤ 4)
    {u v : Bytes} (h : (digits m).take k ++ (List.replicate (4 - k) 0x3d ++ u) =
      (digits n).take l ++ (List.replicate (4 - l) 0x3d ++ v)) :
    k = l ∧ (digits m).take k = (digits n).take k ∧ u = v := by
  have hthird (x : ℕ) : base64Digit (x / 64 % 64) ≠ 0x3d := (base64Digit_spec _ (by omega)).2
  have hfourth (x : ℕ) : base64Digit (x % 64) ≠ 0x3d := (base64Digit_spec _ (by omega)).2
  obtain rfl | rfl | rfl : k = 2 ∨ k = 3 ∨ k = 4 := by omega
  all_goals obtain rfl | rfl | rfl : l = 2 ∨ l = 3 ∨ l = 4 := by omega
  all_goals simp [digits, List.replicate_succ] at h ⊢
  all_goals grind

/-- Digits that are not written are those of zeros. -/
private theorem eq_of_take_digits {m n k : ℕ} (hm : m < 16777216) (hn : n < 16777216)
    (h : (digits m).take k = (digits n).take k)
    (hrest : k = 4 ∨ (k = 3 ∧ m % 64 = n % 64) ∨ (k = 2 ∧ m % 4096 = n % 4096)) : m = n := by
  refine digits_inj hm hn ?_
  rcases hrest with rfl | ⟨rfl, hmod⟩ | ⟨rfl, hmod⟩
  · exact h
  · simp only [digits, List.take_succ_cons, List.take_zero, List.cons.injEq, and_true] at h ⊢
    exact ⟨h.1, h.2.1, h.2.2, by rw [hmod]⟩
  · simp only [digits, List.take_succ_cons, List.take_zero, List.cons.injEq, and_true] at h ⊢
    exact ⟨h.1, h.2, by rw [show m / 64 % 64 = n / 64 % 64 by omega],
      by rw [show m % 64 = n % 64 by omega]⟩

theorem base64_inj {s t : Bytes} (h : base64 s = base64 t) : s = t := by
  induction hlen : s.length using Nat.strong_induction_on generalizing s t with
  | _ len ih =>
    cases s with
    | nil =>
      cases t with
      | nil => rfl
      | cons a' t =>
        obtain ⟨b', c', l, rest', ht, hl⟩ := base64_cons a' t
        rw [ht] at h
        rcases hl with ⟨rfl, -⟩ | ⟨rfl, -⟩ | ⟨rfl, -⟩ <;> simp [base64, digits] at h
    | cons a s =>
      obtain ⟨b, c, k, rest, hs, hk⟩ := base64_cons a s
      cases t with
      | nil =>
        rw [hs] at h
        rcases hk with ⟨rfl, -⟩ | ⟨rfl, -⟩ | ⟨rfl, -⟩ <;> simp [base64, digits] at h
      | cons a' t =>
        obtain ⟨b', c', l, rest', ht, hl⟩ := base64_cons a' t
        rw [hs, ht] at h
        obtain ⟨rfl, hdigits, hrest⟩ := take_digits_inj (by omega) (by omega) (by omega) (by omega) h
        have hgroup : group a b c = group a' b' c' := by
          refine eq_of_take_digits (group_lt a b c) (group_lt a' b' c') hdigits ?_
          rcases hk with ⟨rfl, -⟩ | ⟨rfl, -, rfl, -⟩ | ⟨rfl, -, rfl, rfl, -⟩
          · exact .inl rfl
          · obtain ⟨-, rfl, -⟩ : t = [b'] ∧ c' = 0 ∧ rest' = [] := by simpa using hl
            exact .inr (.inl ⟨rfl, by simp only [group, UInt8.toNat_zero]; omega⟩)
          · obtain ⟨-, rfl, rfl, -⟩ : t = [] ∧ b' = 0 ∧ c' = 0 ∧ rest' = [] := by simpa using hl
            exact .inr (.inr ⟨rfl, by simp only [group, UInt8.toNat_zero]; omega⟩)
        obtain ⟨rfl, rfl, rfl⟩ := group_inj hgroup
        rcases hk with ⟨rfl, rfl⟩ | ⟨rfl, rfl, -⟩ | ⟨rfl, rfl, -⟩
        · obtain rfl : t = b :: c :: rest' := by simpa using hl
          rw [ih rest.length (by simp [← hlen]; omega) hrest rfl]
        · obtain ⟨rfl, -⟩ : t = [b] ∧ _ := by simpa using hl
          rfl
        · obtain ⟨rfl, -⟩ : t = [] ∧ _ := by simpa using hl
          rfl

/-! ## The list of hosts -/

/-- What stands between the brackets of a list of hosts. -/
def hostItems (hosts : List Bytes) : Bytes :=
  [0x2c].intercalate (hosts.map fun h ↦ [0x22] ++ base64 h ++ [0x22])

theorem marshalByteSlices_eq (hosts : List Bytes) :
    marshalByteSlices hosts = [0x5b] ++ hostItems hosts ++ [0x5d] := rfl

theorem mem_hostItem {h : Bytes} {x : UInt8} (hx : x ∈ [0x22] ++ base64 h ++ [0x22]) :
    x ≠ 0x2c ∧ x ≠ 0x5d ∧ x ≠ 0x7c := by
  have hmark : x = 0x22 ∨ isMark x = false := by
    simp only [List.mem_append, List.mem_singleton] at hx
    rcases hx with (hx | hx) | hx
    · exact .inl hx
    · exact .inr (isMark_of_mem_base64 h x hx)
    · exact .inl hx
  rcases hmark with rfl | hmark
  · decide
  · simp only [isMark, Bool.or_eq_false_iff, decide_eq_false_iff_not] at hmark
    exact ⟨hmark.1.1.2, hmark.1.2, hmark.2⟩

theorem mem_intercalate {sep x : UInt8} {ls : List Bytes} (hx : x ∈ [sep].intercalate ls) :
    x = sep ∨ ∃ l ∈ ls, x ∈ l := by
  induction ls with
  | nil => simp at hx
  | cons l ls ih =>
    cases ls with
    | nil => exact .inr ⟨l, by simp, by simpa using hx⟩
    | cons l' ls =>
      rw [List.intercalate_cons_cons] at hx
      simp only [List.mem_append, List.mem_singleton] at hx
      rcases hx with (hx | hx) | hx
      · exact .inr ⟨l, by simp, hx⟩
      · exact .inl hx
      · rcases ih hx with hx | ⟨l'', hl'', hx⟩
        · exact .inl hx
        · exact .inr ⟨l'', List.mem_cons_of_mem _ hl'', hx⟩

theorem mem_hostItems {hosts : List Bytes} {x : UInt8} (hx : x ∈ hostItems hosts) :
    x ≠ 0x5d ∧ x ≠ 0x7c := by
  rcases mem_intercalate hx with rfl | ⟨l, hl, hx⟩
  · decide
  · obtain ⟨h, -, rfl⟩ := List.mem_map.mp hl
    exact (mem_hostItem hx).2

theorem hostItems_inj {hosts hosts' : List Bytes} (h : hostItems hosts = hostItems hosts') :
    hosts = hosts' := by
  have hne {h : Bytes} {hosts : List Bytes} : hostItems (h :: hosts) ≠ [] := by
    cases hosts <;> simp [hostItems, List.intercalate_cons_cons]
  have hsplit {hosts : List Bytes} (hne : hosts ≠ []) : (hostItems hosts).splitOn 0x2c =
      hosts.map fun h ↦ [0x22] ++ base64 h ++ [0x22] := by
    refine List.splitOn_intercalate _ (fun l hl hmem ↦ ?_) (by simpa using hne)
    obtain ⟨h, -, rfl⟩ := List.mem_map.mp hl
    exact (mem_hostItem hmem).1 rfl
  cases hosts with
  | nil =>
    cases hosts' with
    | nil => rfl
    | cons => exact absurd h.symm hne
  | cons x xs =>
    cases hosts' with
    | nil => exact absurd h hne
    | cons y ys =>
      have hmap := congrArg (List.splitOn 0x2c) h
      rw [hsplit (by simp), hsplit (by simp)] at hmap
      refine List.map_injective_iff.mpr (fun h h' heq ↦ base64_inj ?_) hmap
      exact List.append_cancel_left (List.append_cancel_right heq)

/-! ## The fingerprint -/

/-- The hosts of the fingerprint. -/
def fingerprintHosts (config : FetchConfig) : List Bytes :=
  (config.allowedHosts.map normalizeHost).dedup.insertionSort fun x y ↦ x ≤ y

/-- What comes after the hosts. -/
def fingerprintFlags (blockPrivateIPs allowPrivateIPs httpClient : Bool) : Bytes :=
  lit ",bpi:" ++ formatBool blockPrivateIPs ++ lit ",api4ah:" ++ formatBool allowPrivateIPs ++
    lit ",hc:" ++ formatBool httpClient

/-- The fingerprint after its first byte. -/
def fingerprintTail (config : FetchConfig) : Bytes :=
  (lit "ssrf=ah:[" ++ hostItems (fingerprintHosts config)) ++ 0x5d :: fingerprintFlags
    config.blockPrivateIPs config.allowPrivateIPsForAllowedHosts config.httpClient.isSome

theorem securityPolicyFingerprint_eq (config : FetchConfig) :
    securityPolicyFingerprint config = 0x7c :: fingerprintTail config := by
  simp only [securityPolicyFingerprint, fingerprintTail, fingerprintFlags, marshalByteSlices_eq,
    fingerprintHosts]
  simp only [List.append_assoc, show lit "|ssrf=ah:" = 0x7c :: lit "ssrf=ah:" from rfl,
    show lit "ssrf=ah:[" = lit "ssrf=ah:" ++ [0x5b] from rfl, List.cons_append, List.nil_append]

theorem fingerprintFlags_spec : ∀ b₁ b₂ b₃ : Bool, 0x7c ∉ fingerprintFlags b₁ b₂ b₃ ∧
    ∀ b₁' b₂' b₃', fingerprintFlags b₁ b₂ b₃ = fingerprintFlags b₁' b₂' b₃' →
      b₁ = b₁' ∧ b₂ = b₂' ∧ b₃ = b₃' := by
  decide +kernel

theorem bar_notMem_fingerprintTail (config : FetchConfig) : 0x7c ∉ fingerprintTail config := by
  intro hmem
  simp only [fingerprintTail, List.mem_append, List.mem_cons] at hmem
  rcases hmem with (hmem | hmem) | hmem | hmem
  · exact absurd hmem (by decide)
  · exact (mem_hostItems hmem).2 rfl
  · exact absurd hmem (by decide)
  · exact (fingerprintFlags_spec _ _ _).1 hmem

/-- The fingerprint can be told from what stands before it. -/
theorem fingerprint_append_inj {k k' : Bytes} {c c' : FetchConfig}
    (h : k ++ securityPolicyFingerprint c = k' ++ securityPolicyFingerprint c') :
    k = k' ∧ securityPolicyFingerprint c = securityPolicyFingerprint c' := by
  simp only [securityPolicyFingerprint_eq] at h ⊢
  obtain ⟨hk, htail⟩ :=
    append_cons_inj (bar_notMem_fingerprintTail c) (bar_notMem_fingerprintTail c') h
  exact ⟨hk, congrArg _ htail⟩

/-- The parts of the fingerprint. -/
theorem fingerprint_inj {c c' : FetchConfig}
    (h : securityPolicyFingerprint c = securityPolicyFingerprint c') :
    fingerprintHosts c = fingerprintHosts c' ∧ c.blockPrivateIPs = c'.blockPrivateIPs ∧
      c.allowPrivateIPsForAllowedHosts = c'.allowPrivateIPsForAllowedHosts ∧
        c.httpClient.isSome = c'.httpClient.isSome := by
  simp only [securityPolicyFingerprint_eq, List.cons.injEq, true_and] at h
  have hbracket (config : FetchConfig) :
      0x5d ∉ lit "ssrf=ah:[" ++ hostItems (fingerprintHosts config) := by
    intro hmem
    rcases List.mem_append.mp hmem with hmem | hmem
    · exact absurd hmem (by decide)
    · exact (mem_hostItems hmem).1 rfl
  obtain ⟨hhosts, hflags⟩ := append_cons_inj_left (hbracket c) (hbracket c') h
  exact ⟨hostItems_inj (List.append_cancel_left hhosts), (fingerprintFlags_spec _ _ _).2 _ _ _ hflags⟩

/-! ## What a policy authorises -/

theorem mem_fingerprintHosts {config : FetchConfig} {host : Bytes} :
    host ∈ fingerprintHosts config ↔ ∃ entry ∈ config.allowedHosts, normalizeHost entry = host := by
  rw [fingerprintHosts, List.mem_insertionSort, List.mem_dedup, List.mem_map]

/-- The folded runes of an ASCII string are its bytes in lower case. -/
theorem fold_runes_of_isASCII (U : Unicode) {s : Bytes} (hs : isASCII s = true) :
    (runes s).map U.fold = (s.map asciiLower).map UInt8.toNat := by
  rw [runes, runesAux_of_isASCII hs, List.map_map, List.map_map]
  refine List.map_congr_left fun b hb ↦ U.fold_ascii b ?_
  simpa using List.all_eq_true.mp hs b hb

/-- What the fingerprint has of an entry determines it up to the case of its letters. -/
theorem normalizeHost_inj {e e' : Bytes} (h : normalizeHost e = normalizeHost e') (U : Unicode) :
    (trimSuffix e (lit ".")).length = (trimSuffix e' (lit ".")).length ∧
      (runes (trimSuffix e (lit "."))).map U.fold = (runes (trimSuffix e' (lit "."))).map U.fold := by
  simp only [normalizeHost] at h
  generalize trimSuffix e (lit ".") = t at *
  generalize trimSuffix e' (lit ".") = t' at *
  by_cases ht : isASCII t = true
  · by_cases ht' : isASCII t' = true
    · rw [if_pos ht, if_pos ht'] at h
      have hlength := congrArg List.length h
      rw [List.length_map, List.length_map] at hlength
      exact ⟨hlength, by rw [fold_runes_of_isASCII U ht, fold_runes_of_isASCII U ht', h]⟩
    · rw [if_pos ht, if_neg ht'] at h
      exact absurd (h ▸ isASCII_lower ht) ht'
  · by_cases ht' : isASCII t' = true
    · rw [if_neg ht, if_pos ht'] at h
      exact absurd (h ▸ isASCII_lower ht') ht
    · rw [if_neg ht, if_neg ht'] at h
      exact ⟨congrArg _ h, by rw [h]⟩

/-- `hostMatches` does not tell entries apart that the fingerprint does not tell apart. -/
theorem hostMatches_congr {e e' : Bytes} (h : normalizeHost e = normalizeHost e') (U : Unicode)
    (host : Bytes) : hostMatches U host e = hostMatches U host e' := by
  obtain ⟨hlength, hfold⟩ := normalizeHost_inj h U
  simp only [hostMatches, equalFold, hlength, hfold]

theorem hostInAllowedHosts_congr {c c' : FetchConfig} (h : fingerprintHosts c = fingerprintHosts c')
    (U : Unicode) (host : Bytes) : hostInAllowedHosts U host c = hostInAllowedHosts U host c' := by
  have himp {c c' : FetchConfig} (h : fingerprintHosts c = fingerprintHosts c')
      (hmem : hostInAllowedHosts U host c = true) : hostInAllowedHosts U host c' = true := by
    obtain ⟨entry, hentry, hmatches⟩ := List.any_eq_true.mp hmem
    obtain ⟨entry', hentry', hnorm⟩ :=
      mem_fingerprintHosts.mp (h ▸ mem_fingerprintHosts.mpr ⟨entry, hentry, rfl⟩)
    exact List.any_eq_true.mpr ⟨entry', hentry', hostMatches_congr hnorm U host ▸ hmatches⟩
  exact Bool.eq_iff_iff.mpr ⟨himp h, himp h.symm⟩

theorem allowedHosts_eq_nil_congr {c c' : FetchConfig} (h : fingerprintHosts c = fingerprintHosts c') :
    c.allowedHosts = [] ↔ c'.allowedHosts = [] := by
  have hnil (config : FetchConfig) : config.allowedHosts = [] ↔ fingerprintHosts config = [] := by
    rw [List.eq_nil_iff_forall_not_mem, List.eq_nil_iff_forall_not_mem]
    refine ⟨fun hempty host hmem ↦ ?_, fun hempty entry hmem ↦ ?_⟩
    · obtain ⟨entry, hentry, -⟩ := mem_fingerprintHosts.mp hmem
      exact hempty entry hentry
    · exact hempty _ (mem_fingerprintHosts.mpr ⟨entry, hmem, rfl⟩)
  rw [hnil, hnil, h]

/-- The result of the key function of a configuration. -/
def keyOf (config : FetchConfig) (url : Bytes) : Bytes :=
  (config.cacheKeyFunc.getD fun url ↦ lit "mesi:" ++ url) url

/-- **Separation.** Equal cache keys come from equal results of the key functions and equal
fingerprints, and configurations with equal fingerprints authorise the same hosts and agree on the
rest of the policy. -/
theorem fullCacheKey_separates (U : Unicode) (c c' : FetchConfig) (url url' : Bytes) :
    (∀ key, fullCacheKey c url = some key → fullCacheKey c' url' = some key →
      keyOf c url = keyOf c' url' ∧ securityPolicyFingerprint c = securityPolicyFingerprint c') ∧
    (securityPolicyFingerprint c = securityPolicyFingerprint c' →
      (∀ host, hostInAllowedHosts U host c = hostInAllowedHosts U host c') ∧
        (c.allowedHosts = [] ↔ c'.allowedHosts = []) ∧ c.blockPrivateIPs = c'.blockPrivateIPs ∧
          c.allowPrivateIPsForAllowedHosts = c'.allowPrivateIPsForAllowedHosts ∧
            c.httpClient.isSome = c'.httpClient.isSome) := by
  refine ⟨fun key hkey hkey' ↦ ?_, fun h ↦ ?_⟩
  · simp only [fullCacheKey] at hkey hkey'
    split_ifs at hkey hkey'
    exact fingerprint_append_inj ((Option.some.inj hkey).trans (Option.some.inj hkey').symm)
  · obtain ⟨hhosts, hflags⟩ := fingerprint_inj h
    exact ⟨hostInAllowedHosts_congr hhosts U, allowedHosts_eq_nil_congr hhosts, hflags⟩

end GoMesi
