import SemanticCheck.Proofs.Assignability
import SemanticCheck.Proofs.Descriptors
import SemanticCheck.Typing.Infer

/-!
# Same types and the order of operands

Being the same type is being equal up to the ancestors of references, at any depth, and what can be stored
somewhere depends on the place only that far. No operator looks at the order of its operands: it gives the
same type both ways, or the operands do not go together either way. A number that comes out of two numbers
is one that both widen to.
-/

namespace SemanticCheck

/-! ## The wider of two numbers -/

namespace Primitive

variable {p q wider : Primitive}

theorem eq_of_rank {place : Nat} (hp : p.rank? = some place) (hq : q.rank? = some place) : p = q := by
  cases p <;> cases q <;> simp_all [rank?] <;> omega

theorem promote_eq_some_iff :
    p.promote? q = some wider ↔
      ∃ place place', p.rank? = some place ∧ q.rank? = some place' ∧
        wider.rank? = some (max place place') := by
  unfold promote?
  cases hp : p.rank? with
  | none => simp
  | some place =>
    cases hq : q.rank? with
    | none => simp
    | some place' =>
      have hmax : (if place' ≤ place then p else q).rank? = some (max place place') := by
        split
        · rw [hp, Nat.max_eq_left ‹_›]
        · rw [hq, Nat.max_eq_right (by omega)]
      constructor
      · intro h
        exact ⟨place, place', rfl, rfl, Option.some.inj h ▸ hmax⟩
      · rintro ⟨_, _, ⟨⟩, ⟨⟩, hwider⟩
        exact congrArg some (eq_of_rank hmax hwider)

theorem promote_comm (p q : Primitive) : p.promote? q = q.promote? p := by
  ext wider
  rw [promote_eq_some_iff, promote_eq_some_iff, exists_comm]
  simp only [Nat.max_comm, and_left_comm]

theorem widensTo_of_rank_le {place place' : Nat} (hp : p.rank? = some place) (hq : q.rank? = some place')
    (h : place ≤ place') : p.widensTo q = true := by
  rw [widensTo_iff]
  rcases Nat.lt_or_eq_of_le h with hlt | rfl
  · exact .inr ⟨place, place', floor_of_rank hp, hq, hlt⟩
  · exact .inl (eq_of_rank hp hq)

theorem widensTo_of_promote (h : p.promote? q = some wider) :
    p.widensTo wider = true ∧ q.widensTo wider = true := by
  obtain ⟨place, place', hp, hq, hwider⟩ := promote_eq_some_iff.mp h
  constructor
  · exact widensTo_of_rank_le hp hwider (Nat.le_max_left ..)
  · exact widensTo_of_rank_le hq hwider (Nat.le_max_right ..)

end Primitive

/-! ## Same types -/

namespace Ty

theorem sameType_equivalence : Equivalence fun a b : Ty => a.sameType b = true where
  refl a := (sameType_iff a a).mpr rfl
  symm h := (sameType_iff _ _).mpr ((sameType_iff _ _).mp h).symm
  trans h h' := (sameType_iff _ _).mpr (((sameType_iff _ _).mp h).trans ((sameType_iff _ _).mp h'))

theorem assignableTo_bare (a target : Ty) : a.assignableTo target.bare = a.assignableTo target := by
  cases a with
  | array component =>
    cases target with
    | array other => simp only [bare, assignableTo, assignableTo_bare component other]
    | _ => simp [bare, assignableTo]
  | _ => cases target <;> simp [bare, assignableTo]

theorem assignableTo_of_sameType {target target' : Ty} (h : target.sameType target' = true) (a : Ty) :
    a.assignableTo target = a.assignableTo target' := by
  rw [← assignableTo_bare a target, (sameType_iff _ _).mp h, assignableTo_bare]

end Ty

/-! ## Operators -/

/-- The two results are one type, or both say that the operands do not go together, as they stand. -/
def Swaps (symbol : String) (left right : Ty) (result swapped : Typed Ty) : Prop :=
  (∃ type, result = .ok type ∧ swapped = .ok type) ∨
    (result = .error (.type (.incompatibleOperands symbol left.text right.text)) ∧
      swapped = .error (.type (.incompatibleOperands symbol right.text left.text)))

theorem swaps_ok {symbol : String} {left right : Ty} (type : Ty) :
    Swaps symbol left right (.ok type) (.ok type) :=
  .inl ⟨type, rfl, rfl⟩

theorem swaps_incompatible (symbol : String) (left right : Ty) :
    Swaps symbol left right (incompatible symbol left right) (incompatible symbol right left) :=
  .inr ⟨rfl, rfl⟩

theorem mathType_swaps (op : MathOperator) (left right : Ty) :
    Swaps op.symbol left right (mathType op left right) (mathType op right left) := by
  have hjoins : (op == .sum && (right.isString || left.isString) && !right.isVoid && !left.isVoid)
      = (op == .sum && (left.isString || right.isString) && !left.isVoid && !right.isVoid) := by
    rw [Bool.or_comm, Bool.and_right_comm]
  unfold mathType
  rw [hjoins]
  split
  · exact swaps_ok _
  · cases left.primitive? with
    | none => cases right.primitive? <;> exact swaps_incompatible ..
    | some l =>
      cases right.primitive? with
      | none => exact swaps_incompatible ..
      | some r =>
        simp only [r.promote_comm l]
        cases l.promote? r with
        | none => exact swaps_incompatible ..
        | some p => exact swaps_ok _

theorem logicType_swaps (op : LogicOperator) (left right : Ty) :
    Swaps op.symbol left right (logicType op left right) (logicType op right left) := by
  unfold logicType
  rw [Bool.and_comm]
  split
  · exact swaps_ok _
  · exact swaps_incompatible ..

theorem relationalType_swaps (op : RelationalOperator) (left right : Ty) :
    Swaps op.symbol left right (relationalType op left right) (relationalType op right left) := by
  unfold relationalType
  rw [Bool.and_comm left.isNumeric, Bool.or_comm (left.assignableTo right)]
  split
  · exact swaps_ok _
  · exact swaps_incompatible ..

theorem Ty.eq_primitive {type : Ty} {p : Primitive} (h : type.primitive? = some p) : type = primitive p := by
  cases type with
  | primitive q => exact congrArg primitive (Option.some.inj h)
  | _ => cases h

theorem operands_of_mathType {op : MathOperator} {left right : Ty} {p : Primitive}
    (h : mathType op left right = .ok (.primitive p)) :
    ∃ l r, left = .primitive l ∧ right = .primitive r ∧ l.promote? r = some p := by
  unfold mathType at h
  split at h
  · cases h
  · split at h
    · rename_i l r hleft hright
      split at h
      · rename_i hwider
        cases h
        exact ⟨l, r, Ty.eq_primitive hleft, Ty.eq_primitive hright, hwider⟩
      · cases h
    · cases h

namespace BinaryOperator

def symbol : BinaryOperator → String
  | math op => op.symbol
  | logic op => op.symbol
  | relational op => op.symbol

theorem type_swaps (op : BinaryOperator) (left right : Ty) :
    Swaps op.symbol left right (op.type left right) (op.type right left) := by
  cases op with
  | math op => exact mathType_swaps op left right
  | logic op => exact logicType_swaps op left right
  | relational op => exact relationalType_swaps op left right

end BinaryOperator

theorem Scope.typeOf_binary {s : Scope} {env : TypeEnv} {left right : Expr} {leftType rightType : Ty}
    (hleft : s.typeOf env left = .ok leftType) (hright : s.typeOf env right = .ok rightType)
    (op : BinaryOperator) (pos : Option Position) :
    s.typeOf env (.binary op left right pos) = op.type leftType rightType := by
  rw [typeOf, hleft, hright]
  rfl

/-- Being the same up to ancestors is an equivalence that assignment respects, and operands may be swapped. -/
theorem Ty.sameType_and_operands :
    Equivalence (fun a b : Ty => a.sameType b = true) ∧
    (∀ a b : Ty, a.sameType b = true ↔ a.bare = b.bare) ∧
    (∀ target target' : Ty, target.sameType target' = true →
      ∀ a : Ty, a.assignableTo target = a.assignableTo target') ∧
    ∀ (s : Scope) (env : TypeEnv) (left right : Expr) (leftType rightType : Ty),
      s.typeOf env left = .ok leftType → s.typeOf env right = .ok rightType →
      (∀ op pos, Swaps op.symbol leftType rightType (s.typeOf env (.binary op left right pos))
        (s.typeOf env (.binary op right left pos))) ∧
      ∀ op pos p, s.typeOf env (.binary (.math op) left right pos) = .ok (primitive p) →
        ∃ l r, leftType = primitive l ∧ rightType = primitive r ∧
          l.widensTo p = true ∧ r.widensTo p = true := by
  refine ⟨sameType_equivalence, sameType_iff, fun _ _ h => assignableTo_of_sameType h, ?_⟩
  intro s env left right leftType rightType hleft hright
  constructor
  · intro op pos
    rw [Scope.typeOf_binary hleft hright, Scope.typeOf_binary hright hleft]
    exact op.type_swaps leftType rightType
  · intro op pos p h
    rw [Scope.typeOf_binary hleft hright] at h
    obtain ⟨l, r, hl, hr, hwider⟩ := operands_of_mathType h
    exact ⟨l, r, hl, hr, Primitive.widensTo_of_promote hwider⟩

def scalesScope : Scope := ⟨.nothing, ⟨⟨["scales"], by decide, by decide⟩, [], [], none⟩⟩

/-- A whole number and a broken one. -/
def scalesEnv : TypeEnv := (TypeEnv.empty.define "count" .int).define "weight" (.primitive .double)

/-- The broken number comes out both ways, and a comparison with a truth value fails both ways. Rows of texts
go where rows of texts are expected, whatever is known about texts there. -/
theorem Ty.count_and_weight_swap :
    let count : Expr := .name "count" none
    let weight : Expr := .name "weight" none
    let truth : Expr := .literal (.bool true) none
    let result (op : BinaryOperator) (left right : Expr) :=
      scalesScope.typeOf scalesEnv (.binary op left right none)
    (result (.math .division) count weight = .ok (primitive .double) ∧
      result (.math .division) weight count = .ok (primitive .double) ∧
      Primitive.int.widensTo .double = true) ∧
    Swaps "==" .int .boolean (result (.relational .equal) count truth)
      (result (.relational .equal) truth count) ∧
    ∀ a : Ty, a.assignableTo (array (reference stringName [])) = a.assignableTo (array string) := by
  intro count weight truth result
  obtain ⟨-, -, htarget, hoperands⟩ := sameType_and_operands
  have hcount : scalesScope.typeOf scalesEnv count = .ok .int := rfl
  have hweight : scalesScope.typeOf scalesEnv weight = .ok (primitive .double) := rfl
  have htruth : scalesScope.typeOf scalesEnv truth = .ok .boolean := rfl
  obtain ⟨hswaps, hwidens⟩ := hoperands scalesScope scalesEnv count weight _ _ hcount hweight
  have hdivision : result (.math .division) count weight = .ok (primitive .double) := rfl
  refine ⟨⟨hdivision, ?_, ?_⟩, ?_, ?_⟩
  · rcases hswaps (.math .division) none with ⟨type, htype, hswapped⟩ | ⟨herror, -⟩
    · exact hswapped.trans (htype.symm.trans hdivision)
    · cases hdivision.symm.trans herror
  · obtain ⟨l, r, hl, -, hint, -⟩ := hwidens .division none .double hdivision
    cases hl
    exact hint
  · exact (hoperands scalesScope scalesEnv count truth _ _ hcount htruth).1 (.relational .equal) none
  · exact htarget _ _ rfl

end SemanticCheck
