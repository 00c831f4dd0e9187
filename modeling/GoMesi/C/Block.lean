import Mathlib.Data.List.Basic
import Mathlib.Data.Nat.Basic
import Mathlib.Tactic.Common

/-!
# Writing into a block of memory

A program that builds a text in C has a block of memory of a fixed capacity and writes at a cursor
that only moves forward. It is a computation in `Write`, which ends in `Stop.overrun` when it writes
outside of the block or moves the cursor out of it, and in `Stop.refused` when the program gives up
by a check of its own.

A cell is `none` as long as nothing has been written to it. So `Block.Holds` says that the cells
before the cursor have all been written, and with what.

The rules are for programs that append a text and leave some reserve behind it (`Appends`). Those
that check nothing append what fits and overrun the block with what does not (`Emits`). Those that
check first, and keep a cell for the final NUL, refuse it (`Checked`).
-/

namespace C

/-- Why a program does not come to its end. -/
inductive Stop
  | overrun
  | refused
  deriving DecidableEq

/-- A block of memory with a cursor. -/
structure Block where
  cap : ℕ
  cells : ℕ → Option UInt8
  pos : ℕ
  pos_le : pos ≤ cap

/-- A program that writes into a block. -/
abbrev Write := StateT Block (Except Stop)

namespace Block

/-- A new block. -/
def alloc (cap : ℕ) : Block where
  cap := cap
  cells _ := none
  pos := 0
  pos_le := Nat.zero_le cap

/-- The text before the cursor. -/
structure Holds (b : Block) (s : List UInt8) : Prop where
  pos_eq : b.pos = s.length
  cells_eq : ∀ i < s.length, b.cells i = s[i]?

/-- The text before the cursor, with a NUL at the cursor. -/
structure IsString (b : Block) (s : List UInt8) : Prop extends b.Holds s where
  room : s.length < b.cap
  terminated : b.cells s.length = some 0

@[simp] theorem alloc_cap (cap : ℕ) : (alloc cap).cap = cap := rfl

theorem holds_alloc (cap : ℕ) : (alloc cap).Holds [] := ⟨rfl, nofun⟩

theorem Holds.length_le {b : Block} {s : List UInt8} (h : b.Holds s) : s.length ≤ b.cap :=
  h.pos_eq ▸ b.pos_le

/-- A block holds only one text. -/
theorem Holds.unique {b : Block} {s t : List UInt8} (hs : b.Holds s) (ht : b.Holds t) : s = t := by
  have hlength : s.length = t.length := hs.pos_eq.symm.trans ht.pos_eq
  refine List.ext_getElem? fun i ↦ ?_
  by_cases hi : i < s.length
  · rw [← hs.cells_eq i hi, ht.cells_eq i (hlength ▸ hi)]
  · rw [List.getElem?_eq_none (not_lt.mp hi), List.getElem?_eq_none (hlength ▸ not_lt.mp hi)]

end Block

/-! ## Programs -/

variable {α : Type}

namespace Write

/-- To write at the cursor and leave it where it is. -/
def store (s : List UInt8) : Write Unit := fun b ↦
  if b.pos + s.length ≤ b.cap then
    .ok ((), { b with cells := fun i ↦
      if b.pos ≤ i ∧ i < b.pos + s.length then s[i - b.pos]? else b.cells i })
  else .error .overrun

/-- To move the cursor. -/
def advance (n : ℕ) : Write Unit := fun b ↦
  if h : b.pos + n ≤ b.cap then .ok ((), { b with pos := b.pos + n, pos_le := h })
  else .error .overrun

/-- `memcpy(w, s, n); w += n` -/
def copy (s : List UInt8) : Write Unit := do
  store s
  advance s.length

/-- `*w++ = c` -/
def put (c : UInt8) : Write Unit := copy [c]

/-- `*w = '\0'` -/
def terminate : Write Unit := store [0]

/-- The largest `int`. -/
def intMax : ℕ := 2147483647

/-- `snprintf(w, size, …)`: it cuts the text so that it fits with its NUL, and gives the length of
the whole text, unless that is too large for an `int`. -/
def snprintf (size : ℕ) (text : List UInt8) : Write (Option ℕ) := do
  if size ≠ 0 then store (text.take (size - 1) ++ [0])
  pure (if text.length ≤ intMax then some text.length else none)

/-- To give up if the cursor is not where it should be. -/
def refuseIf (p : (pos cap : ℕ) → Bool) : Write Unit := fun b ↦
  if p b.pos b.cap then .error .refused else .ok ((), b)

/-- The capacity that is left. -/
def left : Write ℕ := fun b ↦ .ok (b.cap - b.pos, b)

/-- To give up. -/
def refuse : Write α := fun _ ↦ .error .refused

/-- To append a text in a block that has room for it and for a NUL, and to refuse it otherwise. -/
def appendf (text : List UInt8) : Write Unit := do
  refuseIf fun pos cap ↦ decide (pos ≥ cap)
  match ← snprintf (← left) text with
  | none => refuse
  | some n =>
    refuseIf fun pos cap ↦ decide (n ≥ cap - pos)
    advance n

end Write

open Write

variable {β ι σ : Type} {b b' : Block} {s t : List UInt8} {c : UInt8} {reserve : ℕ} {stop : Stop}

/-! ## Sequences of steps -/

theorem bind_of_ok {p : Write α} {q : α → Write β} {a : α} (h : p b = .ok (a, b')) :
    (p >>= q) b = q a b' := by
  change (p b >>= fun x ↦ q x.1 x.2) = _
  rw [h]
  rfl

theorem bind_of_error {p : Write α} {q : α → Write β} (h : p b = .error stop) :
    (p >>= q) b = .error stop := by
  change (p b >>= fun x ↦ q x.1 x.2) = _
  rw [h]
  rfl

theorem refuseIf_of_true {p : (pos cap : ℕ) → Bool} (h : p b.pos b.cap = true) :
    refuseIf p b = .error .refused := if_pos h

theorem refuseIf_of_not {p : (pos cap : ℕ) → Bool} (h : ¬ p b.pos b.cap = true) :
    refuseIf p b = .ok ((), b) := if_neg h

/-! ## What is stored -/

theorem store_eq (h : b.pos + s.length ≤ b.cap) :
    store s b = .ok ((), { b with cells := fun i ↦
      if b.pos ≤ i ∧ i < b.pos + s.length then s[i - b.pos]? else b.cells i }) := if_pos h

theorem store_eq_overrun (h : b.cap < b.pos + s.length) : store s b = .error .overrun :=
  if_neg (not_le.mpr h)

/-- What is stored at the cursor is behind the text. -/
theorem Block.Holds.exists_store (h : b.Holds t) (hroom : t.length + s.length ≤ b.cap) :
    ∃ b', store s b = .ok ((), b') ∧ b'.cap = b.cap ∧ b'.Holds t ∧
      ∀ i < s.length, b'.cells (t.length + i) = s[i]? := by
  refine ⟨_, store_eq (h.pos_eq ▸ hroom), rfl, ⟨h.pos_eq, fun i hi ↦ ?_⟩, fun i hi ↦ ?_⟩
  · dsimp only
    rw [if_neg (by rw [h.pos_eq]; omega), h.cells_eq i hi]
  · dsimp only
    rw [h.pos_eq, if_pos (by omega), Nat.add_sub_cancel_left]

/-- To move the cursor behind what is stored there. -/
theorem Block.Holds.exists_advance (h : b.Holds t) (hroom : t.length + s.length ≤ b.cap)
    (hcells : ∀ i < s.length, b.cells (t.length + i) = s[i]?) :
    ∃ b', advance s.length b = .ok ((), b') ∧ b'.cap = b.cap ∧ b'.cells = b.cells ∧
      b'.Holds (t ++ s) := by
  have hpos : b.pos + s.length ≤ b.cap := h.pos_eq ▸ hroom
  refine ⟨_, dif_pos hpos, rfl, rfl, ?_, fun i hi ↦ ?_⟩
  · dsimp only
    rw [List.length_append, h.pos_eq]
  · dsimp only
    rw [List.length_append] at hi
    by_cases ht : i < t.length
    · rw [h.cells_eq i ht, List.getElem?_append_left ht]
    · rw [List.getElem?_append_right (not_lt.mp ht), ← hcells _ (by omega),
        Nat.add_sub_cancel' (not_lt.mp ht)]

theorem Block.Holds.exists_terminate (h : b.Holds t) (hroom : t.length < b.cap) :
    ∃ b', terminate b = .ok ((), b') ∧ b'.cap = b.cap ∧ b'.IsString t := by
  obtain ⟨b', hb', hcap, hholds, hcells⟩ := h.exists_store (s := [0]) hroom
  exact ⟨b', hb', hcap, hholds, hcap ▸ hroom, hcells 0 Nat.one_pos⟩

theorem Block.Holds.terminate_eq_overrun (h : b.Holds t) (hroom : b.cap ≤ t.length) :
    terminate b = .error .overrun :=
  store_eq_overrun (Nat.lt_succ_of_le (h.pos_eq ▸ hroom))

/-! ## Programs that append -/

/-- A program appends a text, gives `a`, and leaves a reserve; it stops if there is no room. -/
structure Appends (reserve : ℕ) (stop : Stop) (p : Write α) (s : List UInt8) (a : α) : Prop where
  run : ∀ {b t}, b.Holds t → t.length + s.length + reserve ≤ b.cap →
    ∃ b', p b = .ok (a, b') ∧ b'.cap = b.cap ∧ b'.Holds (t ++ s)
  stops : ∀ {b t}, b.Holds t → t.length + reserve ≤ b.cap →
    b.cap < t.length + s.length + reserve → p b = .error stop

/-- A program appends a text without looking at the capacity. -/
abbrev Emits (p : Write α) (s : List UInt8) (a : α) : Prop := Appends 0 .overrun p s a

/-- A program appends a text and keeps a cell for the NUL. -/
abbrev Checked (p : Write α) (s : List UInt8) (a : α) : Prop := Appends 1 .refused p s a

namespace Appends

theorem pure (a : α) : Appends reserve stop (Pure.pure a : Write α) [] a where
  run {b t} h _ := ⟨b, rfl, rfl, by rwa [List.append_nil]⟩
  stops {b t} _ hle hlt := by
    rw [List.length_nil, Nat.add_zero] at hlt
    exact absurd hle (not_le.mpr hlt)

theorem of_eq {p : Write α} {a : α} (h : Appends reserve stop p s a) (hs : s = t) :
    Appends reserve stop p t a := hs ▸ h

/-- A program appends one text, as a block that has room for two shows. -/
theorem unique {p : Write α} {a : α} (hs : Appends reserve stop p s a)
    (ht : Appends reserve stop p t a) : s = t := by
  have hholds := Block.holds_alloc (s.length + t.length + reserve)
  obtain ⟨b₁, hb₁, -, h₁⟩ := hs.run hholds (by rw [List.length_nil, Block.alloc_cap]; omega)
  obtain ⟨b₂, hb₂, -, h₂⟩ := ht.run hholds (by rw [List.length_nil, Block.alloc_cap]; omega)
  obtain ⟨-, rfl⟩ := Prod.mk.inj (Except.ok.inj (hb₁.symm.trans hb₂))
  exact h₁.unique h₂

/-- Texts are appended one after the other. -/
theorem bind {p : Write α} {q : α → Write β} {a : α} {d : β} (hp : Appends reserve stop p s a)
    (hq : Appends reserve stop (q a) t d) : Appends reserve stop (p >>= q) (s ++ t) d where
  run {b u} h hroom := by
    rw [List.length_append] at hroom
    obtain ⟨b₁, hb₁, hcap₁, hholds₁⟩ := hp.run h (by omega)
    obtain ⟨b₂, hb₂, hcap₂, hholds₂⟩ := hq.run hholds₁ (by rw [List.length_append]; omega)
    exact ⟨b₂, (bind_of_ok hb₁).trans hb₂, hcap₂.trans hcap₁, by rwa [← List.append_assoc]⟩
  stops {b u} h hle hroom := by
    rw [List.length_append] at hroom
    by_cases hfits : u.length + s.length + reserve ≤ b.cap
    · obtain ⟨b₁, hb₁, hcap₁, hholds₁⟩ := hp.run h hfits
      have hstop := hq.stops hholds₁ (by rw [List.length_append, hcap₁]; exact hfits)
        (by rw [List.length_append, hcap₁]; omega)
      exact (bind_of_ok hb₁).trans hstop
    · exact bind_of_error (hp.stops h hle (not_le.mp hfits))

theorem ite {q : Prop} [Decidable q] {p₁ p₂ : Write α} {s₁ s₂ : List UInt8} {a : α}
    (h₁ : q → Appends reserve stop p₁ s₁ a) (h₂ : ¬ q → Appends reserve stop p₂ s₂ a) :
    Appends reserve stop (if q then p₁ else p₂) (if q then s₁ else s₂) a := by
  by_cases hq : q
  · rw [if_pos hq, if_pos hq]
    exact h₁ hq
  · rw [if_neg hq, if_neg hq]
    exact h₂ hq

/-- A loop appends what its body appends, for one element after the other. -/
theorem forM {body : ι → Write PUnit} {text : ι → List UInt8}
    (h : ∀ x, Appends reserve stop (body x) (text x) ()) (xs : List ι) :
    Appends reserve stop (xs.forM body) (xs.flatMap text) () := by
  induction xs with
  | nil => exact pure ()
  | cons x xs ih => exact (h x).bind ih

end Appends

/-- What a loop appends whose body keeps a state. -/
def emitted (text : σ → ι → List UInt8) (next : σ → ι → σ) : σ → List ι → List UInt8
  | _, [] => []
  | n, x :: xs => text n x ++ emitted text next (next n x) xs

theorem Appends.foldlM {body : σ → ι → Write σ} {text : σ → ι → List UInt8} {next : σ → ι → σ}
    (h : ∀ n x, Appends reserve stop (body n x) (text n x) (next n x)) (n : σ) (xs : List ι) :
    Appends reserve stop (xs.foldlM body n) (emitted text next n xs) (xs.foldl next n) := by
  induction xs generalizing n with
  | nil => exact pure n
  | cons x xs ih =>
    rw [List.foldlM_cons]
    exact (h n x).bind (ih (next n x))

section Emitted

variable {text : σ → ι → List UInt8} {next : σ → ι → σ}

/-- The elements that a loop skips can be left out. -/
theorem emitted_filter (p : ι → Bool) (n : σ) (xs : List ι) :
    emitted (fun n x ↦ if p x then text n x else []) (fun n x ↦ if p x then next n x else n) n xs =
      emitted text next n (xs.filter p) := by
  induction xs generalizing n with
  | nil => rfl
  | cons x xs ih =>
    rw [emitted, ih]
    cases hp : p x with
    | true =>
      rw [List.filter_cons_of_pos hp]
      rfl
    | false =>
      rw [List.filter_cons_of_neg (Bool.eq_false_iff.mp hp)]
      rfl

theorem emitted_append (n : σ) (xs ys : List ι) :
    emitted text next n (xs ++ ys) =
      emitted text next n xs ++ emitted text next (xs.foldl next n) ys := by
  induction xs generalizing n with
  | nil => rfl
  | cons x xs ih => rw [List.cons_append, emitted, emitted, ih, List.append_assoc, List.foldl_cons]

/-- A loop in a loop is a loop over all elements. -/
theorem emitted_flatMap {κ : Type} (f : κ → List ι) (n : σ) (xs : List κ) :
    emitted (fun n x ↦ emitted text next n (f x)) (fun n x ↦ (f x).foldl next n) n xs =
      emitted text next n (xs.flatMap f) := by
  induction xs generalizing n with
  | nil => rfl
  | cons x xs ih => rw [emitted, ih, List.flatMap_cons, emitted_append]

/-- A loop that puts a separator before each element but the first. -/
theorem emitted_separated {started : σ → Bool} {sep : List UInt8} {text : ι → List UInt8}
    (hnext : ∀ n x, started (next n x) = true) {n : σ} (hn : started n = false) (xs : List ι) :
    emitted (fun n x ↦ (if started n then sep else []) ++ text x) next n xs =
      sep.intercalate (xs.map text) := by
  have hrest (m : σ) (hm : started m = true) (xs : List ι) :
      emitted (fun n x ↦ (if started n then sep else []) ++ text x) next m xs =
        xs.flatMap fun x ↦ sep ++ text x := by
    induction xs generalizing m with
    | nil => rfl
    | cons x xs ih => rw [emitted, ih _ (hnext m x), if_pos hm, List.flatMap_cons]
  cases xs with
  | nil => rfl
  | cons x xs =>
    rw [emitted, if_neg (Bool.eq_false_iff.mp hn), List.nil_append, hrest _ (hnext n x)]
    induction xs generalizing x with
    | nil => simp [List.intercalate]
    | cons y ys ih =>
      rw [List.flatMap_cons, List.append_assoc, ih y, List.map_cons, List.map_cons, List.map_cons]
      simp [List.intercalate]

end Emitted

/-! ## Single steps -/

theorem emits_copy (s : List UInt8) : Emits (copy s) s () where
  run {b t} h hroom := by
    obtain ⟨b₁, hb₁, hcap₁, hholds₁, hcells₁⟩ := h.exists_store (s := s) hroom
    obtain ⟨b₂, hb₂, hcap₂, -, hholds₂⟩ := hholds₁.exists_advance (hcap₁ ▸ hroom) hcells₁
    exact ⟨b₂, (bind_of_ok hb₁).trans hb₂, hcap₂.trans hcap₁, hholds₂⟩
  stops {b t} h _ hroom := bind_of_error (store_eq_overrun (h.pos_eq ▸ hroom))

theorem emits_put (c : UInt8) : Emits (put c) [c] () := emits_copy [c]

/-- A text that has been appended is a string when it gets its NUL. -/
theorem Appends.exists_terminate {p : Write Unit} (h : Appends reserve stop p s ()) (hb : b.Holds t)
    (hroom : t.length + s.length + reserve ≤ b.cap) (hnul : t.length + s.length < b.cap) :
    ∃ b', (do p; terminate : Write Unit) b = .ok ((), b') ∧ b'.cap = b.cap ∧
      b'.IsString (t ++ s) := by
  obtain ⟨b₁, hb₁, hcap₁, hholds₁⟩ := h.run hb hroom
  obtain ⟨b₂, hb₂, hcap₂, hstring⟩ := hholds₁.exists_terminate
    (by rw [List.length_append, hcap₁]; exact hnul)
  exact ⟨b₂, (bind_of_ok hb₁).trans hb₂, hcap₂.trans hcap₁, hstring⟩

/-- What `snprintf` leaves of a text, behind the text that is there. -/
theorem Block.Holds.exists_snprintf (h : b.Holds t) (size : ℕ) (hsize : size ≠ 0)
    (hle : t.length + size ≤ b.cap) (text : List UInt8) :
    ∃ b', snprintf size text b =
        .ok (if text.length ≤ intMax then some text.length else none, b') ∧
      b'.cap = b.cap ∧ b'.Holds t ∧ (text.length < size →
        ∀ i < (text ++ [0]).length, b'.cells (t.length + i) = (text ++ [0])[i]?) := by
  obtain ⟨b', hb', hcap, hholds, hcells⟩ := h.exists_store (s := text.take (size - 1) ++ [0])
    (by rw [List.length_append, List.length_take, List.length_singleton]; omega)
  refine ⟨b', ?_, hcap, hholds, fun hlt ↦ ?_⟩
  · rw [snprintf, if_pos hsize]
    exact bind_of_ok hb'
  · rwa [List.take_of_length_le (by omega)] at hcells

/-- `appendf` after its call of `snprintf`. -/
theorem Block.Holds.exists_appendf (h : b.Holds t) (hlt : t.length < b.cap) (text : List UInt8) :
    ∃ b', b'.cap = b.cap ∧ b'.Holds t ∧
      (t.length + text.length < b.cap →
        ∀ i < (text ++ [0]).length, b'.cells (t.length + i) = (text ++ [0])[i]?) ∧
      appendf text b =
        if text.length ≤ intMax then
          (do
            refuseIf fun pos cap ↦ decide (text.length ≥ cap - pos)
            advance text.length : Write Unit) b'
        else .error .refused := by
  have hpos := h.pos_eq
  obtain ⟨b', hb', hcap, hholds, hcells⟩ :=
    h.exists_snprintf (b.cap - b.pos) (by omega) (by omega) text
  refine ⟨b', hcap, hholds, fun hfits ↦ hcells (by omega), ?_⟩
  have hleft : left b = .ok (b.cap - b.pos, b) := rfl
  rw [appendf, bind_of_ok (refuseIf_of_not (by simp; omega)), bind_of_ok hleft, bind_of_ok hb']
  by_cases hint : text.length ≤ intMax
  · rw [if_pos hint, if_pos hint]
  · rw [if_neg hint, if_neg hint]
    rfl

/-- A text that fits with its NUL is appended as a string. -/
theorem appendf_isString {text : List UInt8} (hint : text.length ≤ intMax) (h : b.Holds t)
    (hroom : t.length + text.length < b.cap) :
    ∃ b', appendf text b = .ok ((), b') ∧ b'.cap = b.cap ∧ b'.IsString (t ++ text) := by
  obtain ⟨b₁, hcap₁, hholds₁, hcells₁, heq⟩ := h.exists_appendf (by omega) text
  have hpos₁ := hholds₁.pos_eq
  have hstored := hcells₁ hroom
  rw [List.length_append, List.length_singleton] at hstored
  obtain ⟨b₂, hb₂, hcap₂, hcells₂, hholds₂⟩ := hholds₁.exists_advance (s := text) (by omega)
    fun i hi ↦ by rw [hstored i (by omega), List.getElem?_append_left hi]
  refine ⟨b₂, ?_, hcap₂.trans hcap₁, hholds₂, ?_, ?_⟩
  · rw [heq, if_pos hint, bind_of_ok (refuseIf_of_not (by simp; omega))]
    exact hb₂
  · rw [List.length_append]
    omega
  · rw [List.length_append, hcells₂, hstored _ (by omega), List.getElem?_concat_length]

theorem checked_appendf {text : List UInt8} (hint : text.length ≤ intMax) :
    Checked (appendf text) text () where
  run {b t} h hroom := by
    obtain ⟨b', hb', hcap, hstring⟩ := appendf_isString hint h (by omega)
    exact ⟨b', hb', hcap, hstring.toHolds⟩
  stops {b t} h hle hroom := by
    obtain ⟨b₁, hcap₁, hholds₁, -, heq⟩ := h.exists_appendf (by omega) text
    have hpos₁ := hholds₁.pos_eq
    rw [heq, if_pos hint]
    exact bind_of_error (refuseIf_of_true (by simp; omega))

/-- A text that is too long for an `int` is refused wherever it would end. -/
theorem appendf_eq_refused {text : List UInt8} (hint : intMax < text.length) (h : b.Holds t)
    (hlt : t.length < b.cap) : appendf text b = .error .refused := by
  obtain ⟨b₁, -, -, -, heq⟩ := h.exists_appendf hlt text
  rw [heq, if_neg (not_le.mpr hint)]

/-- A program that looks for the room of its text before it appends it. -/
theorem Appends.checked {p : Write α} {a : α} (hp : Emits p s a) :
    Checked (do refuseIf fun pos cap ↦ decide (pos + s.length ≥ cap); p) s a where
  run {b t} h hroom := by
    have hpos := h.pos_eq
    obtain ⟨b', hb', hcap, hholds⟩ := hp.run h (by omega)
    exact ⟨b', (bind_of_ok (refuseIf_of_not (by simp; omega))).trans hb', hcap, hholds⟩
  stops {b t} h _ hroom := by
    have hpos := h.pos_eq
    exact bind_of_error (refuseIf_of_true (by simp; omega))

end C
