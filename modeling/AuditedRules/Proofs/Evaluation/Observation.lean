import AuditedRules.Intake
import AuditedRules.Proofs.Evaluation.Step
import AuditedRules.Proofs.FieldCatalog
import AuditedRules.Proofs.RuleBook.Validation

/-!
# What an evaluation looks at

Of a context, an evaluation looks at nothing but the fields that the predicate names. Only the step
of a field leaf reads the context at all (`operate_congr`), and the leaves below an operand are
leaves of the whole tree, so two contexts that agree on the leaves go through the same evaluation,
step by step (`evaluateNode_congr`).

A catalog that lists some field allows a predicate only fields that it lists. Whatever else is in
the context of an untrusted predicate therefore stays out of its reach once its fields have been
checked, be it for the reply of a compiler or for the rules of a book (`evaluate_observes_fields`).
-/

namespace AuditedRules

/-- Two contexts say the same of some names. -/
def Context.AgreeOn (names : List String) (context context' : Context) : Prop :=
  ∀ name ∈ names, context.get? name = context'.get? name

namespace Predicate

variable {context context' : Context}

/-- The step of a node depends on the context only through the fields of the node. -/
theorem operate_congr {p : Predicate} (h : Context.AgreeOn p.fieldLeaves context context')
    (values : List Value) : p.operate context values = p.operate context' values := by
  cases p with
  | field name =>
    have hname : context.get? name = context'.get? name := h name List.mem_cons_self
    simp only [operate, hname]
  | _ => rfl

/-- Contexts that agree on the leaves of a predicate give the same evaluation of it. -/
theorem evaluateNode_congr {p : Predicate} (h : Context.AgreeOn p.fieldLeaves context context')
    (limit levels : Nat) :
    evaluateNode context limit levels p = evaluateNode context' limit levels p := by
  induction p using operands_induction generalizing levels with
  | node p ih =>
    cases levels with
    | zero => rfl
    | succ levels =>
      have hoperands : ∀ q ∈ p.operands,
          evaluateNode context limit levels q = evaluateNode context' limit levels q :=
        fun q hq => ih q hq (fun name hname => h name (mem_fieldLeaves_of_mem_operands hq hname))
          levels
      rw [evaluateNode_succ, evaluateNode_succ, mapM_congr hoperands]
      simp only [operate_congr h]

/-- Contexts that agree on the fields of a predicate give the same result. -/
theorem evaluate_congr {p : Predicate} (h : Context.AgreeOn p.fieldNames context context')
    (limit : Nat) : p.evaluate context limit = p.evaluate context' limit := by
  have hleaves : Context.AgreeOn p.fieldLeaves context context' :=
    fun name hname => h name (mem_fieldNames_iff.2 hname)
  unfold evaluate tryEvaluate
  rw [evaluateNode_congr hleaves]

end Predicate

/-! ## Catalogs -/

namespace FieldCatalog

/-- Contexts that agree on the names of a catalog agree on the fields of what it allows. -/
theorem agreeOn_fieldNames {catalog : FieldCatalog} {p : Predicate} {context context' : Context}
    (hcatalog : catalog.isEmpty = false) (hp : catalog.firstUnknown? p = none)
    (h : Context.AgreeOn catalog.names context context') :
    Context.AgreeOn p.fieldNames context context' := by
  have hcontains := (firstUnknown?_eq_none_iff hcatalog).1 hp
  exact fun name hname => h name (contains_iff_mem_names.1 (hcontains name hname))

end FieldCatalog

/-- The fields of a compiled predicate are checked by looking for one that is unknown. -/
theorem CompiledPredicate.checkFields_eq_ok_iff {compiled : CompiledPredicate}
    {catalog : FieldCatalog} :
    compiled.checkFields catalog = .ok () ↔ catalog.firstUnknown? compiled.predicate = none := by
  unfold checkFields
  cases catalog.firstUnknown? compiled.predicate <;> simp

/-- Contexts that agree on the fields of a predicate give the same result, value, trace and error.
Contexts that agree on the names of a catalog with some field give the same result for every
predicate that the catalog allows; these are the predicates that pass the check of a compiler's
reply, and the predicates of a valid rule book. -/
theorem evaluate_observes_fields (context context' : Context) (limit : Nat) :
    (∀ p : Predicate, Context.AgreeOn p.fieldNames context context' →
      p.evaluate context limit = p.evaluate context' limit) ∧
    ∀ catalog : FieldCatalog, catalog.isEmpty = false →
      Context.AgreeOn catalog.names context context' →
      (∀ p : Predicate, catalog.firstUnknown? p = none →
        p.evaluate context limit = p.evaluate context' limit) ∧
      (∀ compiled : CompiledPredicate, compiled.checkFields catalog = .ok () →
        compiled.predicate.evaluate context limit = compiled.predicate.evaluate context' limit) ∧
      ∀ book : RuleBook, ∀ bound, book.catalog = catalog → book.validate bound = .ok () →
        ∀ r ∈ book.rules, r.evaluate context limit = r.evaluate context' limit := by
  refine ⟨fun p h => p.evaluate_congr h limit, fun catalog hcatalog h => ?_⟩
  have hallowed : ∀ p : Predicate, catalog.firstUnknown? p = none →
      p.evaluate context limit = p.evaluate context' limit :=
    fun p hp => p.evaluate_congr (FieldCatalog.agreeOn_fieldNames hcatalog hp h) limit
  refine ⟨hallowed, fun compiled hchecked => ?_, fun book bound hbook hvalid r hr => ?_⟩
  · exact hallowed _ (CompiledPredicate.checkFields_eq_ok_iff.1 hchecked)
  · have hfields := (RuleBook.validate_eq_ok_iff.1 hvalid).fields r hr
    rw [hbook] at hfields
    exact hallowed r.predicate hfields

/-- A rule about tiers does not see the balance that one of two records has besides its tier,
although it asks for the tier twice. -/
theorem evaluate_observes_fields_tier :
    let p : Predicate := .logical .or (.comparison .equal (.field "tier") (.const (.string "gold")))
      (.not (.field "tier"))
    let compiled : CompiledPredicate := ⟨p, "gold or an empty tier"⟩
    let catalog : FieldCatalog := ⟨[⟨"tier", .string, none, none⟩]⟩
    let r : Rule := { (default : Rule) with id := "tiers", predicate := p }
    let context : Context := .ofList [("tier", .string "silver")]
    let context' : Context := .ofList [("balance", .number (.ofInt 12)), ("tier", .string "silver")]
    p.fieldNames = ["tier"] ∧ p.evaluate context 3 = p.evaluate context' 3 ∧
      compiled.checkFields catalog = .ok () ∧
      compiled.predicate.evaluate context 3 = compiled.predicate.evaluate context' 3 ∧
      (RuleBook.mk catalog [r]).validate 3 = .ok () ∧
      r.evaluate context 3 = r.evaluate context' 3 := by
  intro p compiled catalog r context context'
  have hnames : p.fieldNames = ["tier"] := Predicate.fieldNames_eq p
  have hagree : Context.AgreeOn ["tier"] context context' := by
    intro name hname
    rw [List.mem_singleton.1 hname]
    rfl
  have hallowed : catalog.firstUnknown? p = none := by
    rw [FieldCatalog.firstUnknown?_eq_none_iff rfl, hnames]
    decide
  have hchecked : compiled.checkFields catalog = .ok () :=
    CompiledPredicate.checkFields_eq_ok_iff.2 hallowed
  have hvalid : (RuleBook.mk catalog [r]).validate 3 = .ok () := by
    refine RuleBook.validate_eq_ok_iff.2 ⟨?_, List.pairwise_singleton _ r, ?_, ?_⟩
    · rintro field hfield value hvalue
      rw [List.mem_singleton.1 hfield] at hvalue
      cases hvalue
    · intro s hs
      rw [List.mem_singleton.1 hs]
      exact Nat.le_of_eq (Predicate.depth_eq_height p)
    · intro s hs
      rw [List.mem_singleton.1 hs]
      exact hallowed
  obtain ⟨hfields, hcatalogs⟩ := evaluate_observes_fields context context' 3
  obtain ⟨-, hcompiled, hbooks⟩ := hcatalogs catalog rfl hagree
  have hp : p.evaluate context 3 = p.evaluate context' 3 := by
    refine hfields p ?_
    rw [hnames]
    exact hagree
  exact ⟨hnames, hp, hchecked, hcompiled compiled hchecked, hvalid,
    hbooks ⟨catalog, [r]⟩ 3 rfl hvalid r List.mem_cons_self⟩

end AuditedRules
