import GoMesi.C.Block
import GoMesi.Go.Decimal
import GoMesi.Servers.PhpProcess

/-!
# The buffers of the PHP extension

`build_parse_json_blob` allocates its buffer before it knows how long the text will be: 360 bytes for
what is always or never the same, and six for each byte of a string that may have to be escaped. It
appends with functions that look for the room first and keep one byte for the NUL. There is always
enough room (`buildParseJsonBlob_eq`). What may fail is `vsnprintf`, which has to give the length of
what it writes in an `int`: the text of the request context is one conversion.

The sizes of strings do not wrap here.
-/

namespace GoMesi.Php

open Strings Apache C Strconv
open C.Write (appendf put refuseIf intMax)

/-! ## Appending -/

/-- `mesi_putc` -/
def mesiPutc (c : UInt8) : Write Unit := do
  refuseIf fun pos cap ↦ decide (pos + 1 ≥ cap)
  put c

/-- The body of the loop of `mesi_json_append_escape`. -/
def mesiAppendByte (p : UInt8) : Write Unit := do
  if p = 0x22 then
    mesiPutc 0x5c
    mesiPutc 0x22
  else if p = 0x5c then
    mesiPutc 0x5c
    mesiPutc 0x5c
  else if p < 0x20 then
    mesiPutc 0x5c
    mesiPutc 0x75
    mesiPutc 0x30
    mesiPutc 0x30
    mesiPutc (hexDigit (p.toNat / 16))
    mesiPutc (hexDigit (p.toNat % 16))
  else mesiPutc p

/-- `mesi_json_append_escape` -/
def mesiJsonAppendEscape (src : Bytes) : Write Unit := (cString src).forM mesiAppendByte

/-- `mesi_json_append_str` -/
def mesiJsonAppendStr (src : Bytes) : Write Unit := do
  mesiPutc 0x22
  mesiJsonAppendEscape src
  mesiPutc 0x22

/-- A string in JSON. -/
def jsonString (src : Bytes) : Bytes := lit "\"" ++ ((cString src).flatMap escapeByte ++ lit "\"")

theorem checked_mesiPutc (c : UInt8) : Checked (mesiPutc c) [c] () := (emits_put c).checked

theorem checked_mesiAppendByte (p : UInt8) : Checked (mesiAppendByte p) (escapeByte p) () := by
  rw [mesiAppendByte, escapeByte]
  refine .ite (fun _ ↦ ?_) fun _ ↦ .ite (fun _ ↦ ?_) fun _ ↦ .ite (fun _ ↦ ?_) fun _ ↦
    checked_mesiPutc p
  · exact (checked_mesiPutc 0x5c).bind (checked_mesiPutc 0x22)
  · exact (checked_mesiPutc 0x5c).bind (checked_mesiPutc 0x5c)
  · exact (checked_mesiPutc 0x5c).bind <| (checked_mesiPutc 0x75).bind <|
      (checked_mesiPutc 0x30).bind <| (checked_mesiPutc 0x30).bind <|
      (checked_mesiPutc _).bind <| checked_mesiPutc _

theorem checked_mesiJsonAppendStr (src : Bytes) :
    Checked (mesiJsonAppendStr src) (jsonString src) () :=
  (checked_mesiPutc 0x22).bind <| (Appends.forM checked_mesiAppendByte (cString src)).bind <|
    checked_mesiPutc 0x22

theorem length_escapeByte_le (p : UInt8) : (escapeByte p).length ≤ 6 := by
  have hunicode : (lit "\\u00").length = 4 := by decide
  rw [escapeByte]
  split_ifs
  · decide
  · decide
  · rw [List.length_append, hunicode]
    exact le_rfl
  · exact Nat.le_add_left 1 5

/-- A string takes six bytes for each of its own at most, and its quotes. -/
theorem length_jsonString_le (src : Bytes) : (jsonString src).length ≤ 6 * (cString src).length + 2 := by
  have hflat (s : Bytes) : (s.flatMap escapeByte).length ≤ 6 * s.length := by
    induction s with
    | nil => exact Nat.zero_le _
    | cons p s ih =>
      have := length_escapeByte_le p
      rw [List.flatMap_cons, List.length_append, List.length_cons]
      omega
  have hquote : (lit "\"").length = 1 := by decide
  have := hflat (cString src)
  rw [jsonString, List.length_append, List.length_append, hquote]
  omega

/-! ## The configuration of a parse -/

theorem forall_mem_none {p : ℤ → Prop} : ∀ v ∈ (none : Option ℤ), p v := nofun

/-- The arguments of `build_parse_json_blob` in a call of `parse_with_config`. -/
structure BlobArgs where
  depth : ℤ
  defaultUrl : Bytes := []
  allowedHosts : Bytes := []
  blockPrivate : Bool := true
  allowPrivateForAllowed : Bool := false
  timeout : Option ℤ := none
  maxResponseSize : Option ℤ := none
  maxConcurrentRequests : Option ℤ := none
  maxWorkers : Option ℤ := none
  debug : Option Bool := none
  includeErrorMarker : Option Bytes := none
  tmpl : Bytes := []
  ctxJson : Bytes := []
  depth_range : 0 ≤ depth ∧ depth ≤ 10000
  timeout_range : ∀ v ∈ timeout, 1 ≤ v ∧ v ≤ 86400 := by exact forall_mem_none
  maxResponseSize_range : ∀ v ∈ maxResponseSize, 0 ≤ v ∧ v ≤ 2 ^ 63 - 2 := by exact forall_mem_none
  maxConcurrentRequests_range : ∀ v ∈ maxConcurrentRequests, 0 ≤ v ∧ v ≤ 999999999 := by exact forall_mem_none
  maxWorkers_range : ∀ v ∈ maxWorkers, 0 ≤ v ∧ v ≤ 999999999 := by exact forall_mem_none

/-- A number that is given. -/
def given (v : ℤ) : Option ℤ := if v = -1 then none else some v

theorem of_mem_given {lo hi v n : ℤ} (h : InRange lo hi n) (hv : v ∈ given n) : lo ≤ v ∧ v ≤ hi := by
  rw [given] at hv
  by_cases hn : n = -1
  · rw [if_pos hn] at hv
    exact absurd hv (Option.not_mem_none v)
  · rw [if_neg hn, Option.mem_some_iff] at hv
    exact hv ▸ h.resolve_left hn

/-- The arguments for a call with options that have passed their checks. -/
def Options.blobArgs (o : Options) (hdepth : validMaxDepth o.maxDepth = true) (ctxJson : Bytes) :
    BlobArgs where
  depth := o.maxDepth
  defaultUrl := o.defaultUrl
  allowedHosts := o.allowedHosts
  blockPrivate := o.blockPrivateIPs
  allowPrivateForAllowed := o.allowPrivateIPsForAllowedHosts
  timeout := given o.timeout
  maxResponseSize := given o.maxResponseSize
  maxConcurrentRequests := given o.maxConcurrentRequests
  maxWorkers := given o.maxWorkers
  debug := o.debug
  includeErrorMarker := o.includeErrorMarker
  tmpl := if o.cacheBackend ≠ [] then o.cacheKeyTemplate.getD [] else []
  ctxJson := ctxJson
  depth_range := of_decide_eq_true hdepth
  timeout_range _ hv := of_mem_given o.timeout_range hv
  maxResponseSize_range _ hv := of_mem_given o.maxResponseSize_range hv
  maxConcurrentRequests_range _ hv := of_mem_given o.maxConcurrentRequests_range hv
  maxWorkers_range _ hv := of_mem_given o.maxWorkers_range hv

namespace BlobArgs

variable (a : BlobArgs)

/-- `has_tmpl` -/
def hasTmpl : Bool := decide (cString a.tmpl ≠ [])

/-- `has_ctx` -/
def hasCtx : Bool := a.hasTmpl && decide (cString a.ctxJson ≠ [])

/-- The capacity of the buffer. -/
def cap : ℕ :=
  360 + (cString a.defaultUrl).length * 6 + (cString a.allowedHosts).length * 6 +
    (if a.hasTmpl then (cString a.tmpl).length * 6 else 0) +
    (if a.hasCtx then (cString a.ctxJson).length else 0) +
    a.includeErrorMarker.elim 0 fun marker ↦ (cString marker).length * 6

end BlobArgs

/-- `true` or `false` -/
def boolText (b : Bool) : Bytes := if b then lit "true" else lit "false"

/-- A number, if it is given. -/
def appendNumber (key : Bytes) : Option ℤ → Write Unit
  | none => pure ()
  | some v => appendf (key ++ formatInt v)

/-- The debug flag, if it is given. -/
def appendDebug : Option Bool → Write Unit
  | none => pure ()
  | some debug => appendf (lit ",\"debug\":" ++ boolText debug)

/-- The marker, if it is given. -/
def appendMarker : Option Bytes → Write Unit
  | none => pure ()
  | some marker => do
    appendf (lit ",\"includeErrorMarker\":")
    mesiJsonAppendStr marker

/-- What `build_parse_json_blob` appends before the template. -/
def writeOptions (a : BlobArgs) : Write Unit := do
  appendf (lit "\x7b\"maxDepth\":" ++ formatInt a.depth ++ lit ",\"defaultUrl\":")
  mesiJsonAppendStr a.defaultUrl
  appendf (lit ",\"allowedHosts\":")
  mesiJsonAppendStr a.allowedHosts
  appendf (lit ",\"blockPrivateIPs\":" ++ boolText a.blockPrivate ++
    lit ",\"allowPrivateIPsForAllowedHosts\":" ++ boolText a.allowPrivateForAllowed)
  appendNumber (lit ",\"timeoutSeconds\":") a.timeout
  appendNumber (lit ",\"maxResponseSize\":") a.maxResponseSize
  appendNumber (lit ",\"maxConcurrentRequests\":") a.maxConcurrentRequests
  appendNumber (lit ",\"maxWorkers\":") a.maxWorkers
  appendDebug a.debug
  appendMarker a.includeErrorMarker

/-- The request context, in one conversion. -/
def contextText (a : BlobArgs) : Bytes := lit ",\"requestCtx\":" ++ cString a.ctxJson

/-- What it appends for the template. -/
def writeTemplate (a : BlobArgs) : Write Unit := do
  if a.hasTmpl then
    appendf (lit ",\"cacheKeyTemplate\":")
    mesiJsonAppendStr a.tmpl
    if a.hasCtx then appendf (contextText a) else pure ()
  else pure ()

/-- All that `build_parse_json_blob` writes. -/
def writeBlob (a : BlobArgs) : Write Unit := do
  writeOptions a
  writeTemplate a
  appendf (lit "\x7d")

/-- `build_parse_json_blob`, with `none` for `NULL`: after `malloc` has failed, or after an append
has. -/
def buildParseJsonBlob (malloc : Bool) (a : BlobArgs) : Except Stop (Option Block) :=
  if ¬ malloc then .ok none
  else
    match writeBlob a (Block.alloc a.cap) with
    | .ok (_, out) => .ok (some out)
    | .error .refused => .ok none
    | .error .overrun => .error .overrun

/-! ## Its text -/

/-- The text of a number, if it is given. -/
def numberText (key : Bytes) (v : Option ℤ) : Bytes := v.elim [] fun v ↦ key ++ formatInt v

/-- The options of a blob. -/
def optionsText (a : BlobArgs) : Bytes :=
  (lit "\x7b\"maxDepth\":" ++ formatInt a.depth ++ lit ",\"defaultUrl\":") ++
  (jsonString a.defaultUrl ++
  (lit ",\"allowedHosts\":" ++
  (jsonString a.allowedHosts ++
  ((lit ",\"blockPrivateIPs\":" ++ boolText a.blockPrivate ++
    lit ",\"allowPrivateIPsForAllowedHosts\":" ++ boolText a.allowPrivateForAllowed) ++
  (numberText (lit ",\"timeoutSeconds\":") a.timeout ++
  (numberText (lit ",\"maxResponseSize\":") a.maxResponseSize ++
  (numberText (lit ",\"maxConcurrentRequests\":") a.maxConcurrentRequests ++
  (numberText (lit ",\"maxWorkers\":") a.maxWorkers ++
  (a.debug.elim [] (fun debug ↦ lit ",\"debug\":" ++ boolText debug) ++
  a.includeErrorMarker.elim [] fun marker ↦
    lit ",\"includeErrorMarker\":" ++ jsonString marker)))))))))

/-- The template of a blob, and its request context. -/
def templateText (a : BlobArgs) : Bytes :=
  if a.hasTmpl then
    lit ",\"cacheKeyTemplate\":" ++ (jsonString a.tmpl ++ if a.hasCtx then contextText a else [])
  else []

/-- A blob. -/
def blobText (a : BlobArgs) : Bytes := optionsText a ++ (templateText a ++ lit "\x7d")

variable {a : BlobArgs}

/-- A number in decimal does not come near the bound of an `int`. -/
theorem length_number_le (key : Bytes) {v : ℤ} {k : ℕ} (hk : 0 < k) (h0 : 0 ≤ v) (hlt : v < 10 ^ k) :
    (key ++ formatInt v).length ≤ key.length + k := by
  obtain ⟨n, rfl⟩ := Int.eq_ofNat_of_zero_le h0
  have hn : n < 10 ^ k := by exact_mod_cast hlt
  rw [List.length_append]
  exact Nat.add_le_add_left ((length_formatInt_le_iff hk).mpr hn) _

theorem length_numberText_le (key : Bytes) {x : Option ℤ} {k : ℕ} (hk : 0 < k)
    (h : ∀ v ∈ x, 0 ≤ v ∧ v < 10 ^ k) : (numberText key x).length ≤ key.length + k := by
  cases x with
  | none => exact Nat.zero_le _
  | some v => exact length_number_le key hk (h v rfl).1 (h v rfl).2

theorem checked_appendNumber {key : Bytes} {x : Option ℤ} {k : ℕ} (hk : 0 < k)
    (h : ∀ v ∈ x, 0 ≤ v ∧ v < 10 ^ k) (hint : key.length + k ≤ intMax) :
    Checked (appendNumber key x) (numberText key x) () := by
  cases x with
  | none => exact .pure ()
  | some v => exact checked_appendf ((length_numberText_le key hk h).trans hint)

theorem BlobArgs.depth_lt (a : BlobArgs) : 0 ≤ a.depth ∧ a.depth < 10 ^ 5 :=
  ⟨a.depth_range.1, a.depth_range.2.trans_lt (by decide)⟩

theorem BlobArgs.timeout_lt (a : BlobArgs) : ∀ v ∈ a.timeout, 0 ≤ v ∧ v < 10 ^ 5 := fun v hv ↦
  ⟨(zero_le_one (α := ℤ)).trans (a.timeout_range v hv).1, (a.timeout_range v hv).2.trans_lt (by decide)⟩

theorem BlobArgs.maxResponseSize_lt (a : BlobArgs) :
    ∀ v ∈ a.maxResponseSize, 0 ≤ v ∧ v < 10 ^ 19 := fun v hv ↦
  ⟨(a.maxResponseSize_range v hv).1, (a.maxResponseSize_range v hv).2.trans_lt (by decide)⟩

theorem BlobArgs.maxConcurrentRequests_lt (a : BlobArgs) :
    ∀ v ∈ a.maxConcurrentRequests, 0 ≤ v ∧ v < 10 ^ 9 := fun v hv ↦
  ⟨(a.maxConcurrentRequests_range v hv).1, (a.maxConcurrentRequests_range v hv).2.trans_lt (by decide)⟩

theorem BlobArgs.maxWorkers_lt (a : BlobArgs) : ∀ v ∈ a.maxWorkers, 0 ≤ v ∧ v < 10 ^ 9 := fun v hv ↦
  ⟨(a.maxWorkers_range v hv).1, (a.maxWorkers_range v hv).2.trans_lt (by decide)⟩

theorem length_boolText_le (b : Bool) : (boolText b).length ≤ 5 := by cases b <;> decide

/-- The conversions of the first call, with the depth. -/
theorem length_depthText_le (a : BlobArgs) :
    (lit "\x7b\"maxDepth\":" ++ formatInt a.depth ++ lit ",\"defaultUrl\":").length ≤ 31 := by
  have hkey : (lit "\x7b\"maxDepth\":").length = 12 := by decide
  have hurl : (lit ",\"defaultUrl\":").length = 14 := by decide
  have := length_number_le (lit "\x7b\"maxDepth\":") (by decide) a.depth_lt.1 a.depth_lt.2
  rw [List.length_append]
  omega

/-- The conversions of the call with the two flags for private addresses. -/
theorem length_privateText_le (b b' : Bool) :
    (lit ",\"blockPrivateIPs\":" ++ boolText b ++ lit ",\"allowPrivateIPsForAllowedHosts\":" ++
      boolText b').length ≤ 63 := by cases b <;> cases b' <;> decide

theorem checked_appendDebug (debug : Option Bool) :
    Checked (appendDebug debug) (debug.elim [] fun debug ↦ lit ",\"debug\":" ++ boolText debug)
      () := by
  cases debug with
  | none => exact .pure ()
  | some debug => exact checked_appendf (by cases debug <;> decide)

theorem checked_appendMarker (marker : Option Bytes) :
    Checked (appendMarker marker)
      (marker.elim [] fun marker ↦ lit ",\"includeErrorMarker\":" ++ jsonString marker) () := by
  cases marker with
  | none => exact .pure ()
  | some marker => exact (checked_appendf (by decide)).bind (checked_mesiJsonAppendStr marker)

theorem checked_writeOptions (a : BlobArgs) : Checked (writeOptions a) (optionsText a) () :=
  (checked_appendf ((length_depthText_le a).trans (by decide))).bind <|
    (checked_mesiJsonAppendStr a.defaultUrl).bind <|
    (checked_appendf (by decide)).bind <|
    (checked_mesiJsonAppendStr a.allowedHosts).bind <|
    (checked_appendf ((length_privateText_le _ _).trans (by decide))).bind <|
    (checked_appendNumber (by decide) a.timeout_lt (by decide)).bind <|
    (checked_appendNumber (by decide) a.maxResponseSize_lt (by decide)).bind <|
    (checked_appendNumber (by decide) a.maxConcurrentRequests_lt (by decide)).bind <|
    (checked_appendNumber (by decide) a.maxWorkers_lt (by decide)).bind <|
    (checked_appendDebug a.debug).bind (checked_appendMarker a.includeErrorMarker)

theorem checked_writeTemplate (h : a.hasCtx = true → (contextText a).length ≤ intMax) :
    Checked (writeTemplate a) (templateText a) () := by
  refine .ite (fun _ ↦ ?_) fun _ ↦ .pure ()
  refine (checked_appendf (by decide)).bind <| (checked_mesiJsonAppendStr _).bind <| .ite ?_ ?_
  · exact fun hctx ↦ checked_appendf (h hctx)
  · exact fun _ ↦ .pure ()

/-! ## The capacity -/

theorem length_optionsText_le (a : BlobArgs) : (optionsText a).length ≤
    270 + (cString a.defaultUrl).length * 6 + (cString a.allowedHosts).length * 6 +
      a.includeErrorMarker.elim 0 fun marker ↦ (cString marker).length * 6 := by
  have htimeout := length_numberText_le (lit ",\"timeoutSeconds\":") (by decide) a.timeout_lt
  have hsize := length_numberText_le (lit ",\"maxResponseSize\":") (by decide)
    a.maxResponseSize_lt
  have hrequests := length_numberText_le (lit ",\"maxConcurrentRequests\":") (by decide)
    a.maxConcurrentRequests_lt
  have hworkers := length_numberText_le (lit ",\"maxWorkers\":") (by decide) a.maxWorkers_lt
  have hdebug : (a.debug.elim [] fun debug ↦ lit ",\"debug\":" ++ boolText debug).length ≤ 14 := by
    rcases a.debug with _ | _ | _ <;> decide
  have hmarker : (a.includeErrorMarker.elim [] fun marker ↦
      lit ",\"includeErrorMarker\":" ++ jsonString marker).length ≤
        24 + a.includeErrorMarker.elim 0 fun marker ↦ (cString marker).length * 6 := by
    cases a.includeErrorMarker with
    | none => exact Nat.zero_le _
    | some marker =>
      have hkey : (lit ",\"includeErrorMarker\":").length = 22 := by decide
      have := length_jsonString_le marker
      simp only [Option.elim_some, List.length_append]
      omega
  have hurl := length_jsonString_le a.defaultUrl
  have hhosts := length_jsonString_le a.allowedHosts
  have hdepth := length_depthText_le a
  have hprivate := length_privateText_le a.blockPrivate a.allowPrivateForAllowed
  have hkeys : (lit ",\"allowedHosts\":").length = 16 ∧ (lit ",\"timeoutSeconds\":").length = 18 ∧
      (lit ",\"maxResponseSize\":").length = 19 ∧
      (lit ",\"maxConcurrentRequests\":").length = 25 ∧ (lit ",\"maxWorkers\":").length = 14 := by
    decide
  rw [optionsText]
  simp only [List.length_append] at hdepth hprivate ⊢
  omega

theorem length_templateText_le (a : BlobArgs) : (templateText a).length ≤
    36 + (if a.hasTmpl then (cString a.tmpl).length * 6 else 0) +
      (if a.hasCtx then (cString a.ctxJson).length else 0) := by
  have hkey : (lit ",\"cacheKeyTemplate\":").length = 20 := by decide
  have hcontext : (contextText a).length = 14 + (cString a.ctxJson).length := by
    rw [contextText, List.length_append]
    rfl
  have htmpl := length_jsonString_le a.tmpl
  rw [templateText]
  by_cases ht : a.hasTmpl = true
  · rw [if_pos ht, if_pos ht, List.length_append, List.length_append]
    by_cases hc : a.hasCtx = true
    · rw [if_pos hc, if_pos hc, hcontext]
      omega
    · rw [if_neg hc, if_neg hc, List.length_nil]
      omega
  · rw [if_neg ht, List.length_nil]
    exact Nat.zero_le _

/-- The buffer has room for the blob and its NUL. -/
theorem length_blobText_lt (a : BlobArgs) : (blobText a).length < a.cap := by
  have hoptions := length_optionsText_le a
  have htemplate := length_templateText_le a
  have hclose : (lit "\x7d").length = 1 := by decide
  rw [blobText, List.length_append, List.length_append, hclose, BlobArgs.cap]
  omega

/-! ## What becomes of it -/

/-- A program that gives up wherever its text would end. -/
def Refuses (p : Write Unit) : Prop :=
  ∀ b t, b.Holds t → t.length < b.cap → p b = .error .refused

theorem Refuses.bind_left {p q : Write Unit} (hp : Refuses p) : Refuses (do p; q) :=
  fun b t h hlt ↦ bind_of_error (hp b t h hlt)

theorem Refuses.bind_right {p q : Write Unit} {s : Bytes} (hp : Checked p s ()) (hq : Refuses q) :
    Refuses (do p; q) := by
  intro b t h hlt
  by_cases hroom : t.length + s.length + 1 ≤ b.cap
  · obtain ⟨b', hb', hcap, hholds⟩ := hp.run h hroom
    rw [bind_of_ok hb']
    exact hq b' (t ++ s) hholds (by rw [List.length_append, hcap]; omega)
  · exact bind_of_error (hp.stops h hlt (not_le.mp hroom))

/-- A context that is too long for `vsnprintf` makes the function give up. -/
theorem refuses_writeBlob (hctx : a.hasCtx = true) (hlong : intMax < (contextText a).length) :
    Refuses (writeBlob a) := by
  have htmpl : a.hasTmpl = true := by
    rw [BlobArgs.hasCtx, Bool.and_eq_true] at hctx
    exact hctx.1
  have hcontext : Refuses (appendf (contextText a)) :=
    fun _ _ h hlt ↦ appendf_eq_refused hlong h hlt
  have htemplate : Refuses (writeTemplate a) := by
    rw [writeTemplate, if_pos htmpl, if_pos hctx]
    exact Refuses.bind_right (checked_appendf (by decide)) <|
      Refuses.bind_right (checked_mesiJsonAppendStr a.tmpl) hcontext
  exact Refuses.bind_right (checked_writeOptions a) htemplate.bind_left

theorem writeBlob_eq (h : a.hasCtx = true → (contextText a).length ≤ intMax) :
    ∃ out, writeBlob a (Block.alloc a.cap) = .ok ((), out) ∧ out.cap = a.cap ∧
      out.IsString (blobText a) := by
  have hlt := length_blobText_lt a
  rw [blobText, List.length_append, List.length_append] at hlt
  obtain ⟨b₁, hb₁, hcap₁, hholds₁⟩ := (checked_writeOptions a).run (Block.holds_alloc a.cap)
    (by rw [List.length_nil, Block.alloc_cap]; omega)
  obtain ⟨b₂, hb₂, hcap₂, hholds₂⟩ := (checked_writeTemplate h).run hholds₁
    (by rw [hcap₁, Block.alloc_cap, List.nil_append]; omega)
  rw [List.nil_append] at hholds₂
  have hcap : b₂.cap = a.cap := hcap₂.trans hcap₁
  obtain ⟨out, hout, hcap₃, hstring⟩ := appendf_isString
    (by decide : (lit "\x7d").length ≤ intMax) hholds₂
    (by rw [hcap, List.length_append]; omega)
  refine ⟨out, ?_, hcap₃.trans hcap, ?_⟩
  · exact (bind_of_ok hb₁).trans <| (bind_of_ok hb₂).trans hout
  · rwa [blobText, ← List.append_assoc]

theorem buildParseJsonBlob_of_long (malloc : Bool) (hctx : a.hasCtx = true)
    (hlong : intMax < (contextText a).length) : buildParseJsonBlob malloc a = .ok none := by
  have hrefused := refuses_writeBlob hctx hlong (Block.alloc a.cap) [] (Block.holds_alloc a.cap)
    (Nat.zero_lt_of_lt (length_blobText_lt a))
  rw [buildParseJsonBlob]
  cases malloc with
  | false => rfl
  | true => rw [if_neg (not_not.mpr rfl), hrefused]

theorem exists_buildParseJsonBlob_eq
    (h : ¬ (a.hasCtx = true ∧ intMax < (contextText a).length)) :
    ∃ out, buildParseJsonBlob true a = .ok (some out) ∧ out.cap = a.cap ∧
      out.IsString (blobText a) := by
  obtain ⟨out, hout, hcap, hstring⟩ := writeBlob_eq (a := a)
    fun hctx ↦ not_lt.mp fun hlt ↦ h ⟨hctx, hlt⟩
  refine ⟨out, ?_, hcap, hstring⟩
  rw [buildParseJsonBlob, if_neg (not_not.mpr rfl), hout]

/-- **Main result.** The capacity is enough for the blob and its NUL. The function gives `NULL` if
`malloc` fails, and if the text of the request context is longer than an `int` can tell; otherwise
it gives the whole blob. -/
theorem buildParseJsonBlob_eq (malloc : Bool) (a : BlobArgs) :
    (blobText a).length < a.cap ∧
    (buildParseJsonBlob malloc a = .ok none ↔
      malloc = false ∨ a.hasCtx = true ∧ intMax < (contextText a).length) ∧
    (buildParseJsonBlob malloc a = .ok none ∨
      ∃ out, buildParseJsonBlob malloc a = .ok (some out) ∧ out.cap = a.cap ∧
        out.IsString (blobText a)) := by
  refine ⟨length_blobText_lt a, ?_⟩
  cases malloc with
  | false => exact ⟨iff_of_true rfl (.inl rfl), .inl rfl⟩
  | true =>
    by_cases hlong : a.hasCtx = true ∧ intMax < (contextText a).length
    · have hnone := buildParseJsonBlob_of_long true hlong.1 hlong.2
      exact ⟨iff_of_true hnone (.inr hlong), .inl hnone⟩
    · obtain ⟨out, hout, hstring⟩ := exists_buildParseJsonBlob_eq hlong
      refine ⟨iff_of_false ?_ ?_, .inr ⟨out, hout, hstring⟩⟩
      · rw [hout]
        rintro ⟨⟩
      · rintro (⟨⟨⟩⟩ | hctx)
        exact hlong hctx

/-- A template, and a request with a header of `n` bytes and no cookie. -/
def longHeader (n : ℕ) : BlobArgs where
  depth := 0
  tmpl := lit "$\x7bheader:X\x7d"
  ctxJson := lit "\x7b\"headers\":\x7b\"X\":\"" ++ (List.replicate n 0x61 ++
    lit "\"\x7d,\"cookies\":[]\x7d")
  depth_range := by decide

/-- The blob for a header of 2 GiB is not built although `malloc` has given the memory. -/
theorem buildParseJsonBlob_longHeader :
    buildParseJsonBlob true (longHeader (2 ^ 31)) = .ok none := by
  have hcontext : cString (longHeader (2 ^ 31)).ctxJson = (longHeader (2 ^ 31)).ctxJson := by
    refine (cString_eq_iff _).mpr fun hmem ↦ ?_
    rcases List.mem_append.mp hmem with hmem | hmem
    · exact absurd hmem (by decide)
    rcases List.mem_append.mp hmem with hmem | hmem
    · exact absurd (List.eq_of_mem_replicate hmem) (by decide)
    · exact absurd hmem (by decide)
  have hlong : 2 ^ 31 ≤ (cString (longHeader (2 ^ 31)).ctxJson).length := by
    rw [hcontext, longHeader]
    simp only [List.length_append, List.length_replicate]
    omega
  have hctx : (longHeader (2 ^ 31)).hasCtx = true := by
    rw [BlobArgs.hasCtx, Bool.and_eq_true, decide_eq_true_eq]
    refine ⟨rfl, fun hnil ↦ ?_⟩
    rw [hnil, List.length_nil] at hlong
    omega
  refine buildParseJsonBlob_of_long true hctx ?_
  rw [contextText, List.length_append, intMax]
  omega

end GoMesi.Php
