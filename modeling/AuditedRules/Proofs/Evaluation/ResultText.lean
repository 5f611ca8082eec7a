import AuditedRules.Proofs.Evaluation.Audit
import AuditedRules.Proofs.Evaluation.Records

/-!
# Results as compact text

Each level of a trace takes two levels of its JSON form, an object and the array of the entries
below, and a result puts one more around them. Text is read with `127` levels, so a result is read
from its compact text when its trace has fewer than `64` levels, and refused as nested too deep
otherwise (`EvalResult.decode_compact_toJson`).

The trace of an evaluation that succeeds has the levels of the predicate (`height_trace`), and `64`
of them are within the default limit. So the results of the deepest predicates that are accepted
cannot be read again (`evaluate_compact_decode`).

How numbers are read is left open. A reader that scales a significand by a power of ten misses some
doubles by a place, so that the numbers of a result are kept is a hypothesis. With the nearest
doubles it holds of all finite numbers (`EvalResult.numbersKept_toJson`), and a result without
numbers meets it whatever the reading is, so the deepest results are lost in any case
(`result_of_negations_not_decoded`).

That a trace is refused is shown entry by entry again. The members before the entries below are
read, and so are the entries in front of the first one that is nested too deep; being nested too
deep is the only fault that does not say where it was met.
-/

namespace AuditedRules

/-! ## Levels of JSON forms -/

/-- One of the items has as many levels as items have at the most. -/
theorem Json.exists_mem_of_lt_itemsNesting {items : List Json} {levels : Nat}
    (h : levels < itemsNesting items) : ∃ item ∈ items, levels < item.nesting := by
  induction items with
  | nil => exact absurd h (Nat.not_lt_zero _)
  | cons first rest ih =>
    rw [itemsNesting] at h
    by_cases hfirst : levels < first.nesting
    · exact ⟨first, List.mem_cons_self, hfirst⟩
    · obtain ⟨item, hitem, hlt⟩ := ih (by omega)
      exact ⟨item, List.mem_cons_of_mem _ hitem, hlt⟩

namespace Trace

mutual

/-- The number of levels of entries. -/
def height : Trace → Nat
  | ⟨_, _, _, children⟩ => heights children + 1

/-- The greatest number of levels in a list of traces. -/
def heights : List Trace → Nat
  | [] => 0
  | t :: rest => max (height t) (heights rest)

end

/-- The form of a trace has the levels of the entries below and two more. -/
theorem nesting_toJson_eq (label : String) (value : Value) (pass : Option Bool)
    (children : List Trace) :
    (toJson ⟨label, value, pass, children⟩).nesting =
      Json.itemsNesting (children.map toJson) + 2 := by
  rw [toJson, toJsons_eq_map]
  cases pass <;>
    simp [Json.nesting, Json.membersNesting, Value.nesting_toJson]

mutual

/-- Each level of a trace takes two levels of its form. -/
theorem nesting_toJson : ∀ t : Trace, t.toJson.nesting = 2 * t.height
  | ⟨label, value, pass, children⟩ => by
    rw [nesting_toJson_eq, itemsNesting_map_toJson children, height]
    omega

/-- The forms in a list of traces have two levels for each level of a trace. -/
theorem itemsNesting_map_toJson :
    ∀ ts : List Trace, Json.itemsNesting (ts.map toJson) = 2 * heights ts
  | [] => rfl
  | t :: rest => by
    rw [List.map_cons, Json.itemsNesting, nesting_toJson t, itemsNesting_map_toJson rest, heights]
    omega

end

end Trace

/-! ## Nested too deep -/

/-- Items are nested too deep if one of them is and the others are read, or are as well. -/
theorem Decoder.items_eq_tooDeep {α : Type} {item : Document → Except Fault α}
    {documents : List Document}
    (h : ∀ d ∈ documents, (∃ value, item d = .ok value) ∨ item d = .error .tooDeep)
    (hdeep : ∃ d ∈ documents, item d = .error .tooDeep) (index : Nat) :
    items item index documents = .error .tooDeep := by
  induction documents generalizing index with
  | nil =>
    obtain ⟨d, hd, -⟩ := hdeep
    cases hd
  | cons first rest ih =>
    obtain ⟨hfirst, hrest⟩ := List.forall_mem_cons.1 h
    rw [items]
    rcases hfirst with ⟨value, hvalue⟩ | hfirst
    · -- The first item is read, so it is one behind it.
      have hbehind : ∃ d ∈ rest, item d = .error .tooDeep := by
        obtain ⟨d, hd, hfault⟩ := hdeep
        rcases List.mem_cons.1 hd with rfl | hd
        · rw [hvalue] at hfault
          cases hfault
        · exact ⟨d, hd, hfault⟩
      rw [hvalue, ih hrest hbehind]
      rfl
    · rw [hfirst]
      rfl

namespace Trace

/-- A trace with finite numbers is nested too deep where its form has more levels than there are. -/
theorem decoderWithin_eq_tooDeep {t : Trace} (h : t.NumbersFinite) {levels bound : Nat}
    (hbound : levels < bound) (hlevels : levels < t.toJson.nesting) :
    decoderWithin bound .json levels t.toJson.toDocument = .error .tooDeep := by
  induction h generalizing levels bound with
  | @entry label value pass children hvalue hfinite ih =>
    obtain ⟨bound, rfl⟩ : ∃ more, bound = more + 1 := Nat.exists_eq_add_one.2 (by omega)
    rw [nesting_toJson_eq] at hlevels
    rw [toJson, toJsons_eq_map]
    unfold decoderWithin
    cases levels with
    | zero => rfl
    | succ below =>
      -- The members in front are read, so it is the entries below that decide.
      have hchildren : Decoder.list (decoderWithin bound) .json below
          (Json.array (children.map toJson)).toDocument = .error .tooDeep := by
        cases below with
        | zero =>
          -- The array itself is one level too many.
          rfl
        | succ below =>
          -- An entry below is nested too deep where it is not read.
          have hall : ∀ d ∈ (children.map toJson).map Json.toDocument,
              (∃ t, decoderWithin bound .json below d = .ok t) ∨
                decoderWithin bound .json below d = .error .tooDeep := by
            intro d hd
            rw [List.map_map] at hd
            obtain ⟨t, ht, rfl⟩ := List.mem_map.1 hd
            by_cases hfits : t.toJson.nesting ≤ below
            · exact .inl ⟨_, decoderWithin_readsBack (hfinite t ht) (by omega) _ (.refl _) hfits⟩
            · exact .inr (ih t ht (by omega) (by omega))
          have hdeep : ∃ d ∈ (children.map toJson).map Json.toDocument,
              decoderWithin bound .json below d = .error .tooDeep := by
            obtain ⟨v, hv, hlt⟩ := Json.exists_mem_of_lt_itemsNesting
              (show below < Json.itemsNesting (children.map toJson) by omega)
            obtain ⟨t, ht, rfl⟩ := List.mem_map.1 hv
            exact ⟨_, List.mem_map_of_mem hv, ih t ht (by omega) hlt⟩
          rw [Json.toDocument, Json.itemDocuments_eq_map]
          dsimp only [Decoder.list, bind, Except.bind]
          rw [Decoder.items_eq_tooDeep hall hdeep]
      have hvalue : Value.decoder .json below value.toJson.toDocument = .ok value.canonical :=
        Value.decoder_readsBack hvalue below _ (.refl _)
          (Nat.le_trans (Nat.le_of_eq value.nesting_toJson) (Nat.zero_le below))
      cases pass with
      | none =>
        exact (Decoder.record_eq_error (.cons ⟨_, rfl, rfl⟩
          (.cons ⟨_, rfl, congrArg (Except.map _) hvalue⟩ .nil)) (by simp) (by simp) rfl
          (congrArg (Except.map _) hchildren) rfl).trans rfl
      | some b =>
        exact (Decoder.record_eq_error (.cons ⟨_, rfl, rfl⟩
          (.cons ⟨_, rfl, congrArg (Except.map _) hvalue⟩ (.cons ⟨_, rfl, rfl⟩ .nil))) (by simp)
          (by simp) rfl (congrArg (Except.map _) hchildren) rfl).trans rfl

/-- The numbers in the form of a trace are those of its first value and of the entries below. -/
theorem allNumbers_toJson {P : DocumentNumber → Prop} {label : String} {value : Value}
    {pass : Option Bool} {children : List Trace} (hvalue : value.toJson.AllNumbers P)
    (hbelow : ∀ t ∈ children, t.toJson.AllNumbers P) :
    (toJson ⟨label, value, pass, children⟩).AllNumbers P := by
  have hchildren : (Json.array (children.map toJson)).AllNumbers P :=
    .array (List.forall_mem_map.2 hbelow)
  rw [toJson, toJsons_eq_map]
  refine .object ?_
  cases pass with
  | none => simp [Json.AllNumbers.string, hvalue, hchildren]
  | some b => simp [Json.AllNumbers.string, Json.AllNumbers.bool, hvalue, hchildren]

/-- The numbers in the form of a trace with finite numbers fit. -/
theorem numbersFit_toJson {t : Trace} (h : t.NumbersFinite) : t.toJson.NumbersFit := by
  induction h with
  | entry hvalue _ ih => exact allNumbers_toJson (Value.numbersFit_toJson hvalue) ih

end Trace

/-! ## Results -/

namespace EvalResult

/-- The numbers in the form of a result are those of its value and of its trace. -/
theorem allNumbers_toJson {P : DocumentNumber → Prop} {r : EvalResult}
    (hvalue : (Json.ofOption (r.value.map Value.toJson)).AllNumbers P)
    (htrace : r.trace.toJson.AllNumbers P) : r.toJson.AllNumbers P := by
  obtain ⟨pass, value, trace, error⟩ := r
  dsimp only at hvalue htrace
  refine .object ?_
  cases error with
  | none => simp [Json.AllNumbers.bool, hvalue, htrace]
  | some message => simp [Json.AllNumbers.bool, Json.AllNumbers.string, hvalue, htrace]

/-- With the nearest doubles the numbers in the form of a result are kept when they are finite. -/
theorem numbersKept_toJson {r : EvalResult} (h : r.NumbersFinite) :
    r.toJson.NumbersKept Json.numberOfParts :=
  Json.NumbersFit.numbersKept
    (allNumbers_toJson (Value.numbersFit_ofOption_toJson h.value) (Trace.numbersFit_toJson h.trace))

/-- The form of a result has one level more than that of its trace. -/
theorem nesting_toJson (r : EvalResult) : r.toJson.nesting = 2 * r.trace.height + 1 := by
  obtain ⟨pass, value, trace, error⟩ := r
  have hvalue : (Json.ofOption (value.map Value.toJson)).nesting = 0 :=
    Value.nesting_ofOption_toJson value
  cases error with
  | none => simp [toJson, Json.nesting, Json.membersNesting, hvalue, Trace.nesting_toJson]
  | some message => simp [toJson, Json.nesting, Json.membersNesting, hvalue, Trace.nesting_toJson]

/-- A result with finite numbers that are kept is read from its compact text when its trace has
fewer than `64` levels, and is nested too deep otherwise. -/
theorem decode_compact_toJson {reading : Json.NumberReading} {r : EvalResult}
    (h : r.NumbersFinite) (hkept : r.toJson.NumbersKept reading) :
    (Json.read r.toJson.compact reading).decode .json decoder =
      if r.trace.height < 64 then .ok r.canonical else .error .tooDeep := by
  split
  · have hfits : r.toJson.nesting ≤ Format.json.levels := by
      have hlevels : Format.json.levels = 127 := rfl
      rw [nesting_toJson]
      omega
    exact (decoder_readsBack h _).decode_compact hkept hfits
  · have hdeep : Trace.decoder .json 126 r.trace.toJson.toDocument = .error .tooDeep := by
      refine Trace.decoderWithin_eq_tooDeep h.trace (Nat.lt_succ_self 126) ?_
      rw [Trace.nesting_toJson]
      omega
    -- The value in front of the trace is read, so the fault is that of the trace.
    have hvalue : Decoder.optional Value.decoder .json 126
        (Json.ofOption (r.value.map Value.toJson)).toDocument =
          .ok (r.value.map Value.canonical) :=
      Value.optional_decoder_readsBack h.value 126 _ (.refl _)
        (Nat.le_trans (Nat.le_of_eq (Value.nesting_ofOption_toJson r.value)) (Nat.zero_le 126))
    have hlevels : Format.json.levels = 126 + 1 := rfl
    rw [Json.decode_compact_of_kept decoder hkept, hlevels]
    exact (Decoder.record_eq_error (.cons ⟨_, rfl, rfl⟩
      (.cons ⟨_, rfl, congrArg (Except.map _) hvalue⟩ .nil)) (by simp) (by simp) rfl
      (congrArg (Except.map _) hdeep) rfl).trans rfl

end EvalResult

/-! ## Evaluations -/

/-- A trace fits into one level more than the entries below its first one. -/
theorem Trace.height_le_succ_iff {t : Trace} {levels : Nat} :
    t.height ≤ levels + 1 ↔ ∀ child ∈ t.children, child.height ≤ levels := by
  have hheights : ∀ ts : List Trace, heights ts ≤ levels ↔ ∀ child ∈ ts, child.height ≤ levels := by
    intro ts
    induction ts with
    | nil => simp [heights]
    | cons first rest ih => rw [heights, Nat.max_le, List.forall_mem_cons, ih]
  obtain ⟨label, value, pass, children⟩ := t
  rw [height, Nat.add_le_add_iff_right]
  exact hheights children

namespace Predicate

variable {context : Context} {limit levels : Nat} {p : Predicate} {e : Evaluated}

/-- The trace of an evaluation fits into as many levels as the predicate. -/
theorem height_trace_le_iff (h : evaluateNode context limit levels p = .ok e) (bound : Nat) :
    e.trace.height ≤ bound ↔ p.height ≤ bound := by
  induction p using operands_induction generalizing levels e bound with
  | node p ih =>
    cases levels with
    | zero => cases h
    | succ levels =>
      cases bound with
      | zero =>
        -- Neither of them fits into no level at all.
        obtain ⟨value, label, found, pass, children⟩ := e
        have hpos := p.height_pos
        simp only [Trace.height]
        omega
      | succ bound =>
        obtain ⟨operands, hoperands, -, htrace⟩ := evaluateNode_succ_eq_ok_iff.1 h
        have hchildren : e.trace.children = operands.map (·.trace) := by rw [htrace, entry]
        rw [Trace.height_le_succ_iff, height_le_succ_iff, hchildren, List.forall_mem_map]
        -- Each operand has a result, and each result is that of an operand.
        constructor
        · intro hfits q hq
          obtain ⟨inner, hinner, hresult⟩ := exists_result_of_map_eq hoperands hq
          exact (ih q hq hresult bound).1 (hfits inner hinner)
        · intro hfits inner hinner
          obtain ⟨q, hq, hresult⟩ := exists_item_of_map_eq hoperands hinner
          exact (ih q hq hresult bound).2 (hfits q hq)

/-- The trace of an evaluation has as many levels as the predicate. -/
theorem height_trace (h : evaluateNode context limit levels p = .ok e) :
    e.trace.height = p.height :=
  eq_of_forall_ge_iff (height_trace_le_iff h)

/-- Let the numbers of a result be finite, and let a reading of numbers give each of them back from
its text. Then the compact text of the result is decoded as the result with its zeros positive,
unless the evaluation succeeds and the predicate has all the levels that the default limit allows.
In that case the text is nested too deep. -/
theorem evaluate_compact_decode {p : Predicate} {context : Context} {reading : Json.NumberReading}
    (hfinite : (p.evaluate context defaultLimit).NumbersFinite)
    (hkept : (p.evaluate context defaultLimit).toJson.NumbersKept reading) :
    (Json.read (p.evaluate context defaultLimit).toJson.compact reading).decode .json
        EvalResult.decoder =
      if (p.evaluate context defaultLimit).isError ∨ p.depth < defaultLimit then
        .ok (p.evaluate context defaultLimit).canonical
      else .error .tooDeep := by
  rw [EvalResult.decode_compact_toJson hfinite hkept]
  have hlevels : (p.evaluate context defaultLimit).trace.height < 64 ↔
      (p.evaluate context defaultLimit).isError ∨ p.depth < defaultLimit := by
    unfold evaluate tryEvaluate
    cases hevaluate : evaluateNode context defaultLimit defaultLimit p with
    | error e =>
      -- The trace of a failure has a single entry.
      have hheight : (EvalResult.failure e).trace.height = 1 := rfl
      refine iff_of_true ?_ (.inl rfl)
      show (EvalResult.failure e).trace.height < 64
      omega
    | ok e =>
      have hsuccess : (EvalResult.success e).isError = false := rfl
      show e.trace.height < 64 ↔ (EvalResult.success e).isError = true ∨ p.depth < 64
      rw [height_trace hevaluate, depth_eq_height, hsuccess]
      simp
  simp only [hlevels]

/-- A constant that is negated some times. -/
def negations : Nat → Predicate
  | 0 => .const (.bool true)
  | n + 1 => .not (negations n)

/-- Each negation is a level. -/
theorem depth_negations (n : Nat) : (negations n).depth = n + 1 := by
  rw [depth_eq_height]
  induction n with
  | zero => rfl
  | succ n ih => rw [negations, height, ih]

/-- A negated constant is evaluated within its levels, and there are no numbers. -/
theorem evaluateNode_negations (context : Context) (limit : Nat) {n levels : Nat}
    (h : n < levels) : ∃ e, evaluateNode context limit levels (negations n) = .ok e ∧
      e.trace.NumbersFinite ∧ (∀ P, e.trace.toJson.AllNumbers P) ∧ ∃ b, e.value = .bool b := by
  induction n generalizing levels with
  | zero =>
    obtain ⟨below, rfl⟩ : ∃ below, levels = below + 1 := Nat.exists_eq_add_one.2 h
    exact ⟨_, rfl, .entry trivial fun _ ht => absurd ht List.not_mem_nil,
      fun P => Trace.allNumbers_toJson (.bool true) fun _ ht => absurd ht List.not_mem_nil,
      true, rfl⟩
  | succ n ih =>
    obtain ⟨below, rfl⟩ : ∃ below, levels = below + 1 := Nat.exists_eq_add_one.2 (by omega)
    obtain ⟨inner, hinner, hfinite, hnone, -⟩ := ih (Nat.lt_of_succ_lt_succ h)
    refine ⟨.decision "not (logical)" (!inner.value.truthy) [inner.trace], ?_,
      .entry trivial (List.forall_mem_singleton.2 hfinite),
      fun P => Trace.allNumbers_toJson (.bool _) (List.forall_mem_singleton.2 (hnone P)), _, rfl⟩
    rw [negations, evaluateNode, hinner]
    rfl

/-- The result for a negated constant within the default limit has a value and no numbers. -/
theorem evaluate_negations (context : Context) {n : Nat} (h : n < defaultLimit) :
    ∃ e, (negations n).evaluate context defaultLimit = .success e ∧ e.trace.height = n + 1 ∧
      (EvalResult.success e).NumbersFinite ∧ ∀ P, (EvalResult.success e).toJson.AllNumbers P := by
  obtain ⟨e, he, hfinite, hnone, b, hb⟩ := evaluateNode_negations context defaultLimit h
  refine ⟨e, evaluate_eq_success_iff.2 he, ?_, ⟨?_, hfinite⟩, fun P => ?_⟩
  · rw [height_trace he, ← depth_eq_height, depth_negations]
  · intro value hvalue
    have hsame : some e.value = some value := hvalue
    rw [← Option.some.inj hsame, hb]
    trivial
  · refine EvalResult.allNumbers_toJson ?_ (hnone P)
    show (Json.ofOption (some e.value.toJson)).AllNumbers P
    rw [hb]
    exact .bool b

/-- The result for a sum of whole numbers is decoded. So is that for a constant that is negated `62`
times, and with one negation more the result is nested too deep. -/
theorem evaluate_compact_decode_negations :
    let sum : Predicate :=
      .arithmetic .add (.const (.number (.ofInt 1))) (.const (.number (.ofInt 2)))
    let total : EvalResult := sum.evaluate (.ofList []) defaultLimit
    let result (n : Nat) : EvalResult := (negations n).evaluate (.ofList []) defaultLimit
    (Json.read total.toJson.compact).decode .json EvalResult.decoder = .ok total.canonical ∧
    (Json.read (result 62).toJson.compact).decode .json EvalResult.decoder =
      .ok (result 62).canonical ∧
    (Json.read (result 63).toJson.compact).decode .json EvalResult.decoder = .error .tooDeep := by
  intro sum total result
  obtain ⟨e, he, -, hfinite, -⟩ :=
    evaluate_negations (.ofList []) (show 62 < defaultLimit by decide)
  obtain ⟨e', he', -, hfinite', -⟩ :=
    evaluate_negations (.ofList []) (show 63 < defaultLimit by decide)
  rw [← he] at hfinite
  rw [← he'] at hfinite'
  have hthree : ((Binary64.ofInt 1).add (.ofInt 2)).isFinite = true := by decide +kernel
  have hleaf (x : Binary64) (hx : x.isFinite = true) :
      (Trace.leaf "const" (.number x)).NumbersFinite :=
    .entry hx fun _ ht => absurd ht List.not_mem_nil
  have hsum : total.NumbersFinite := by
    refine ⟨fun value hvalue => Option.some.inj hvalue ▸ hthree, .entry hthree fun t ht => ?_⟩
    rcases List.mem_pair.1 ht with rfl | rfl
    · exact hleaf (.ofInt 1) (by decide +kernel)
    · exact hleaf (.ofInt 2) (by decide +kernel)
  refine ⟨?_, ?_, ?_⟩
  · have hfits : sum.depth < defaultLimit := by
      rw [depth_eq_height]
      decide
    rw [evaluate_compact_decode hsum (EvalResult.numbersKept_toJson hsum), if_pos (.inr hfits)]
  · have hfits : (negations 62).depth < defaultLimit := (depth_negations 62).trans_lt (by decide)
    rw [evaluate_compact_decode hfinite (EvalResult.numbersKept_toJson hfinite),
      if_pos (.inr hfits)]
  · have hvalue : (result 63).isError = false := congrArg EvalResult.isError he'
    have hlevels : ¬ (negations 63).depth < defaultLimit := by
      rw [depth_negations]
      decide
    rw [evaluate_compact_decode hfinite' (EvalResult.numbersKept_toJson hfinite'), if_neg]
    rintro (herror | hfits)
    · exact Bool.false_ne_true (hvalue.symm.trans herror)
    · exact hlevels hfits

/-- A constant that is negated `63` times is read from its text, and its evaluation has a value and
no numbers that are not finite, but the compact text of the result is not decoded, however numbers
are read. -/
theorem result_of_negations_not_decoded :
    let p : Predicate := negations 63
    let result : EvalResult := p.evaluate (.ofList []) defaultLimit
    ofText defaultLimit p.toJson.compact = .ok p ∧ result.isError = false ∧
      result.NumbersFinite ∧
      ∀ (reading : Json.NumberReading) r,
        (Json.read result.toJson.compact reading).decode .json EvalResult.decoder ≠ .ok r := by
  intro p result
  obtain ⟨e, he, hheight, hfinite, hnone⟩ :=
    evaluate_negations (.ofList []) (show 63 < defaultLimit by decide)
  have hresult : result = .success e := he
  have hdepth : p.depth = 64 := depth_negations 63
  have hconstants : p.ConstantsFinite := trivial
  have hread : ofText defaultLimit p.toJson.compact = .ok p := by
    rw [ofText_compact_toJson hconstants (by rw [hdepth]; decide)]
    exact ofJson_toJson_eq_ok_iff.2 ⟨rfl, hconstants, Nat.le_of_eq hdepth⟩
  refine ⟨hread, ?_, ?_, fun reading r hr => ?_⟩
  · rw [hresult]
    rfl
  · rw [hresult]
    exact hfinite
  · have hdeep : ¬ (EvalResult.success e).trace.height < 64 := by
      show ¬ e.trace.height < 64
      omega
    -- There are no numbers, so all of them are kept.
    rw [hresult, EvalResult.decode_compact_toJson hfinite (hnone reading.Keeps), if_neg hdeep] at hr
    cases hr

end Predicate

end AuditedRules
