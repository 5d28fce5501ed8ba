import SemanticCheck.Proofs.Preorder

/-!
# What is reported about an annotation

The walk passes an annotation from the outside in and reads it only where no array is left, while the type
of the whole is computed through all arrays at once. Both come down to the innermost component: an annotation
without a type is reported once, there, for the reason why the whole has none.
-/

namespace SemanticCheck

/-! ## Components -/

namespace TypeExpr

/-- The annotation and what its arrays hold, from the outside in. -/
def components : TypeExpr → List TypeExpr
  | array component pos => array component pos :: component.components
  | a => [a]

/-- What is left when all arrays are taken off. -/
def innermost : TypeExpr → TypeExpr
  | array component _ => component.innermost
  | a => a

theorem getLast_components (a : TypeExpr) : a.components.getLast? = some a.innermost := by
  induction a with
  | array component pos ih => simp [components, innermost, List.getLast?_cons, ih]
  | _ => rfl

theorem descendants_tree (a : TypeExpr) : a.tree.descendants = a.components.map .typeExpr := by
  rw [Tree.descendants_eq_preorder]
  induction a with
  | array component pos ih => simp [tree, components, ih]
  | _ => simp [tree, components]

theorem innermost_ne_array (a component : TypeExpr) (pos : Option Position) :
    a.innermost ≠ array component pos := by
  induction a with
  | array other _ ih => exact ih
  | _ => simp [innermost]

end TypeExpr

theorem Scope.denote_error_iff (s : Scope) (a : TypeExpr) (e : ResolutionError) :
    s.denote a = .error e ↔ s.denote a.innermost = .error e := by
  induction a with
  | array component pos ih =>
    rw [TypeExpr.innermost, ← ih, denote]
    cases s.denote component <;> simp [Except.map]
  | _ => rfl

/-! ## The walk over an annotation -/

namespace Site

variable (site : Site)

theorem checkTypeExpr_of_ok {a : TypeExpr} {type : Ty} (h : site.scope.denote a = .ok type)
    (st : ValidationState) : site.checkTypeExpr a st = (true, st) := by
  cases a <;> simp [checkTypeExpr, h]

theorem checkTypeExpr_of_error {a : TypeExpr} {e : ResolutionError}
    (harray : ∀ component pos, a ≠ .array component pos) (h : site.scope.denote a = .error e)
    (st : ValidationState) :
    site.checkTypeExpr a st = (false, { st with log := st.log.record a.pos e.message }) := by
  have hcheck : site.checkTypeExpr a = report a.pos (.unresolved e) := by
    cases a with
    | array component pos => exact absurd rfl (harray component pos)
    | _ => simp only [checkTypeExpr, h]
  have hmessage : (Finding.unresolved e).message = e.message := rfl
  rw [hcheck, report_apply, hmessage]

/-- Arrays are passed without a word. -/
theorem validate_typeExpr (a : TypeExpr) (st : ValidationState) :
    site.validate a.tree st = site.checkTypeExpr a.innermost st := by
  induction a with
  | array component pos ih =>
    have harray : site.checkTypeExpr (.array component pos) st = (true, st) := rfl
    rw [TypeExpr.tree, validate_node]
    simp only [enter, check, harray, validateAll, ih, Bool.true_and, Bool.and_true, leave,
      TypeExpr.innermost]
    exact Prod.eta _
  | primitive name pos | reference name pos | void pos =>
    rw [TypeExpr.tree, validate_node]
    · simp only [enter, check, validateAll, Bool.and_true, leave, TypeExpr.innermost]
      exact Prod.eta _
    · nofun

theorem validate_typeExpr_of_ok {a : TypeExpr} {type : Ty} (h : site.scope.denote a = .ok type)
    (st : ValidationState) : site.validate a.tree st = (true, st) := by
  rw [validate_typeExpr]
  cases hinnermost : site.scope.denote a.innermost with
  | ok innermostType => exact site.checkTypeExpr_of_ok hinnermost st
  | error e => cases h.symm.trans ((site.scope.denote_error_iff a e).mpr hinnermost)

theorem validate_typeExpr_of_error {a : TypeExpr} {e : ResolutionError} (h : site.scope.denote a = .error e)
    (st : ValidationState) :
    site.validate a.tree st = (false, { st with log := st.log.record a.innermost.pos e.message }) := by
  rw [validate_typeExpr]
  exact site.checkTypeExpr_of_error a.innermost_ne_array ((site.scope.denote_error_iff a e).mp h) st

/-- An annotation without a type is reported once, at its innermost component, and any other is not. -/
theorem annotation_reported_once (a : TypeExpr) (st : ValidationState) :
    (a.tree.descendants = a.components.map .typeExpr ∧ a.components.getLast? = some a.innermost) ∧
    (∀ type, site.scope.denote a = .ok type → site.validate a.tree st = (true, st)) ∧
    ∀ e, site.scope.denote a = .error e →
      site.validate a.tree st = (false, { st with log := st.log.record a.innermost.pos e.message }) :=
  ⟨⟨a.descendants_tree, a.getLast_components⟩, fun _ h => site.validate_typeExpr_of_ok h st,
    fun _ h => site.validate_typeExpr_of_error h st⟩

def docksSite : Site := ⟨.nothing, ⟨⟨["docks"], by decide, by decide⟩, [], [], none⟩, 0, 0⟩

/-- Rows of rows of ships, of which nobody knows, and of numbers. -/
theorem rows_of_ships_reported :
    let ships : TypeExpr :=
      .array (.array (.reference "Ship" (some ⟨⟨1, 0⟩, ⟨1, 4⟩⟩)) none) (some ⟨⟨1, 0⟩, ⟨1, 8⟩⟩)
    let numbers : TypeExpr := .array (.array (.primitive "int" none) none) none
    (docksSite.validate ships.tree {}).2.log.entries =
        [⟨some ⟨⟨1, 0⟩, ⟨1, 4⟩⟩, (ResolutionError.unknownType "Ship").message⟩] ∧
      (docksSite.validate numbers.tree {}).2.log.entries = [] := by
  intro ships numbers
  have hships : docksSite.scope.denote ships = .error (.unknownType "Ship") := rfl
  have hnumbers : docksSite.scope.denote numbers = .ok (.array (.array .int)) := rfl
  constructor
  · rw [(docksSite.annotation_reported_once ships {}).2.2 _ hships]
    rfl
  · rw [(docksSite.annotation_reported_once numbers {}).2.1 _ hnumbers]
    rfl

end Site

end SemanticCheck
