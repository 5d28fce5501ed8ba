import Mathlib.Data.List.Induction
import Mathlib.Data.Prod.Lex
import Mathlib.Data.Set.Finite.Lemmas
import Mathlib.Data.Set.Finite.List
import SemanticCheck.Types.Env

/-!
# Scopes and their history

The local names at some point are the result of all the scopes that were opened and closed and all the
definitions made so far. How many scopes are open can be told from these steps alone, and so can which
definitions are still there: those since which there have never been fewer scopes open than when they were
made. A lookup finds the latest of them in the innermost scope that has one.
-/

namespace SemanticCheck

/-! ## Steps -/

inductive ScopeStep where
  | push
  | pop
  | define (name : String) (type : Ty)

namespace ScopeStep

def apply (env : TypeEnv) : ScopeStep → TypeEnv
  | push => env.push
  | pop => env.pop
  | define name type => env.define name type

/-- How many scopes are open after a step, given how many are before it. The outermost is never closed. -/
def level (count : Nat) : ScopeStep → Nat
  | push => count + 1
  | pop => max 1 (count - 1)
  | define .. => count

end ScopeStep

/-- The local names after some steps. -/
def TypeEnv.run (env : TypeEnv) (steps : List ScopeStep) : TypeEnv := steps.foldl ScopeStep.apply env

/-- How many scopes are open after some steps. At first there is one. -/
def openScopes (steps : List ScopeStep) : Nat := steps.foldl ScopeStep.level 1

theorem TypeEnv.run_concat (env : TypeEnv) (steps : List ScopeStep) (step : ScopeStep) :
    env.run (steps ++ [step]) = step.apply (env.run steps) := by
  simp [run]

theorem openScopes_concat (steps : List ScopeStep) (step : ScopeStep) :
    openScopes (steps ++ [step]) = step.level (openScopes steps) := by
  simp [openScopes]

theorem ScopeStep.depth_apply (env : TypeEnv) (step : ScopeStep) :
    (step.apply env).depth = step.level env.depth := by
  cases step with
  | push => rfl
  | pop =>
    obtain ⟨inner, outer⟩ := env
    cases outer with
    | nil => rfl
    | cons scope rest => simp [apply, level, TypeEnv.pop, TypeEnv.depth]
  | define name type => rfl

theorem TypeEnv.depth_run (steps : List ScopeStep) :
    (TypeEnv.empty.run steps).depth = openScopes steps := by
  induction steps using List.reverseRecOn with
  | nil => rfl
  | append_singleton steps step ih => rw [run_concat, openScopes_concat, step.depth_apply, ih]

/-! ## What is still there -/

/-- The scope that is innermost after the earlier steps is not closed on the way to the later ones: at no
time in between are fewer scopes open. -/
def StillOpen (earlier later : List ScopeStep) : Prop :=
  ∀ steps, earlier <+: steps → steps <+: later → openScopes earlier ≤ openScopes steps

/-- A definition made after the earlier steps is still there after all of them. -/
structure Stands (steps earlier : List ScopeStep) (name : String) (type : Ty) : Prop where
  made : earlier ++ [.define name type] <+: steps
  kept : StillOpen earlier steps

theorem stillOpen_concat {earlier later : List ScopeStep} {step : ScopeStep} (h : earlier <+: later) :
    StillOpen earlier (later ++ [step]) ↔
      StillOpen earlier later ∧ openScopes earlier ≤ openScopes (later ++ [step]) := by
  constructor
  · intro hopen
    refine ⟨fun steps hearlier hlater => ?_, ?_⟩
    · exact hopen steps hearlier (hlater.trans (List.prefix_append later [step]))
    · exact hopen _ (h.trans (List.prefix_append later [step])) List.prefix_rfl
  · rintro ⟨hopen, hlast⟩ steps hearlier hlater
    rcases List.prefix_concat_iff.mp hlater with rfl | hlater
    · exact hlast
    · exact hopen steps hearlier hlater

namespace Stands

variable {steps earlier : List ScopeStep} {name : String} {type : Ty}

theorem isPrefix (h : Stands steps earlier name type) : earlier <+: steps :=
  (List.prefix_append earlier _).trans h.made

theorem length_lt (h : Stands steps earlier name type) : earlier.length < steps.length := by
  simpa [Nat.succ_le_iff] using h.made.length_le

theorem level_le (h : Stands steps earlier name type) : openScopes earlier ≤ openScopes steps :=
  h.kept steps h.isPrefix List.prefix_rfl

end Stands

/-- A step makes a definition or none. Of those made before it, the ones in scopes that it leaves open
stay. -/
theorem stands_concat {steps earlier : List ScopeStep} {step : ScopeStep} {name : String} {type : Ty} :
    Stands (steps ++ [step]) earlier name type ↔
      (earlier = steps ∧ step = .define name type) ∨
        (Stands steps earlier name type ∧ openScopes earlier ≤ openScopes (steps ++ [step])) := by
  constructor
  · rintro ⟨hmade, hkept⟩
    rcases List.prefix_concat_iff.mp hmade with hlast | hmade
    · obtain ⟨rfl, hstep⟩ := List.append_inj' hlast rfl
      exact .inl ⟨rfl, (List.cons.inj hstep).1.symm⟩
    · have hearlier : earlier <+: steps := (List.prefix_append earlier _).trans hmade
      obtain ⟨hkept, hlast⟩ := (stillOpen_concat hearlier).mp hkept
      exact .inr ⟨⟨hmade, hkept⟩, hlast⟩
  · rintro (⟨rfl, rfl⟩ | ⟨h, hlast⟩)
    · refine ⟨List.prefix_rfl, fun later hearlier hlater => ?_⟩
      rcases List.prefix_concat_iff.mp hlater with rfl | hlater
      · rw [openScopes_concat]
        exact Nat.le_refl _
      · exact Nat.le_of_eq (congrArg openScopes (hearlier.eq_of_length_le hlater.length_le))
    · refine ⟨h.made.trans (List.prefix_append steps [step]), ?_⟩
      exact (stillOpen_concat h.isPrefix).mpr ⟨h.kept, hlast⟩

section Steps

variable {steps earlier : List ScopeStep} {name : String} {type : Ty}

theorem stands_push_iff : Stands (steps ++ [.push]) earlier name type ↔ Stands steps earlier name type := by
  rw [stands_concat]
  constructor
  · rintro (⟨-, hstep⟩ | ⟨h, -⟩)
    · cases hstep
    · exact h
  · intro h
    refine .inr ⟨h, ?_⟩
    rw [openScopes_concat]
    exact Nat.le_succ_of_le h.level_le

theorem stands_pop_iff :
    Stands (steps ++ [.pop]) earlier name type ↔
      Stands steps earlier name type ∧ openScopes earlier ≤ openScopes (steps ++ [.pop]) := by
  rw [stands_concat]
  exact or_iff_right fun ⟨_, hstep⟩ => by cases hstep

theorem stands_define_iff {defined : String} {definedType : Ty} :
    Stands (steps ++ [.define defined definedType]) earlier name type ↔
      (earlier = steps ∧ defined = name ∧ definedType = type) ∨ Stands steps earlier name type := by
  rw [stands_concat, ScopeStep.define.injEq, openScopes_concat]
  exact or_congr_right (and_iff_left_of_imp Stands.level_le)

end Steps

/-- Of the definitions of a kind, each told by the steps before it and its type, this is the type of the
latest one in the innermost scope that has one. -/
def LatestInnermost (Kind : List ScopeStep → Ty → Prop) (type : Ty) : Prop :=
  ∃ earlier, Kind earlier type ∧ ∀ other otherType, Kind other otherType →
    openScopes other < openScopes earlier ∨
      (openScopes other = openScopes earlier ∧ other.length ≤ earlier.length)

theorem latestInnermost_congr {Kind Kind' : List ScopeStep → Ty → Prop} {type : Ty}
    (h : ∀ earlier type, Kind earlier type ↔ Kind' earlier type) :
    LatestInnermost Kind type ↔ LatestInnermost Kind' type := by
  simp only [LatestInnermost, h]

/-- A definition that is later than all others and in no scope further out is the one. -/
theorem latestInnermost_iff_of_last {Kind : List ScopeStep → Ty → Prop} {type last : Ty}
    {before : List ScopeStep} (hlast : Kind before last)
    (hothers : ∀ other otherType, Kind other otherType → (other = before ∧ otherType = last) ∨
      (other.length < before.length ∧ openScopes other ≤ openScopes before)) :
    LatestInnermost Kind type ↔ type = last := by
  constructor
  · rintro ⟨earlier, hkind, hrank⟩
    rcases hothers earlier type hkind with ⟨-, rfl⟩ | ⟨hlength, hlevel⟩
    · rfl
    · have hbefore := hrank before last hlast
      omega
  · rintro rfl
    refine ⟨before, hlast, fun other otherType hother => ?_⟩
    rcases hothers other otherType hother with ⟨rfl, -⟩ | ⟨hlength, hlevel⟩ <;> omega

theorem exists_latestInnermost {Kind : List ScopeStep → Ty → Prop} {steps earlier : List ScopeStep}
    {type : Ty} (h : Kind earlier type) (hkind : ∀ earlier type, Kind earlier type → earlier <+: steps) :
    ∃ type, LatestInnermost Kind type := by
  have hfinite : {earlier | ∃ type, Kind earlier type}.Finite := by
    refine (List.finite_toSet steps.inits).subset ?_
    rintro earlier ⟨type, hearlier⟩
    exact (List.mem_inits earlier steps).mpr (hkind earlier type hearlier)
  obtain ⟨top, ⟨topType, htop⟩, hmax⟩ := Set.exists_max_image _
    (fun earlier => toLex (openScopes earlier, earlier.length)) hfinite ⟨earlier, type, h⟩
  refine ⟨topType, top, htop, fun other otherType hother => ?_⟩
  exact Prod.Lex.le_iff.mp (hmax other ⟨otherType, hother⟩)

/-! ## The outermost scopes -/

namespace TypeEnv

def outermost (env : TypeEnv) (count : Nat) : List LocalScope := env.scopes.drop (env.depth - count)

/-- The type of a name in the outermost scopes. -/
def lookupWithin (env : TypeEnv) (count : Nat) (name : String) : Option Ty :=
  (env.outermost count).findSome? (·.lookup name)

theorem outermost_of_depth_le {env : TypeEnv} {count : Nat} (h : env.depth ≤ count) :
    env.outermost count = env.scopes := by
  rw [outermost, Nat.sub_eq_zero_of_le h, List.drop_zero]

/-- A step changes nothing but the innermost scope, or what is inside of it. -/
theorem outermost_apply {env : TypeEnv} {count : Nat} (h : count < env.depth) (step : ScopeStep) :
    (step.apply env).outermost count = env.outermost count := by
  obtain ⟨inner, outer⟩ := env
  simp only [depth] at h
  cases step with
  | push =>
    have hdepth : outer.length + 1 + 1 - count = (outer.length + 1 - count) + 1 := by omega
    simp [ScopeStep.apply, outermost, push, scopes, depth, hdepth]
  | pop =>
    cases outer with
    | nil => rfl
    | cons scope rest =>
      rw [List.length_cons] at h
      have hdepth : rest.length + 1 + 1 - count = (rest.length + 1 - count) + 1 := by omega
      simp [ScopeStep.apply, outermost, pop, scopes, depth, hdepth]
  | define name type =>
    have hdepth : outer.length + 1 - count = (outer.length - count) + 1 := by omega
    simp [ScopeStep.apply, outermost, define, scopes, depth, hdepth]

theorem outermost_min (env : TypeEnv) (count : Nat) :
    env.outermost (min count env.depth) = env.outermost count := by
  unfold outermost
  congr 1
  omega

theorem lookupWithin_depth (env : TypeEnv) (name : String) :
    env.lookupWithin env.depth name = env.lookup? name := by
  rw [lookupWithin, outermost_of_depth_le (Nat.le_refl _), lookup?]

theorem lookupWithin_push (env : TypeEnv) (count : Nat) (name : String) :
    env.push.lookupWithin count name = env.lookupWithin count name := by
  unfold lookupWithin
  rcases Nat.lt_or_ge count env.depth with hcount | hcount
  · rw [← outermost_apply hcount .push, ScopeStep.apply]
  · rw [outermost_of_depth_le hcount]
    obtain hnone | hone : env.push.depth - count = 0 ∨ env.push.depth - count = 1 := by
      simp only [push, depth, scopes, List.length_cons] at hcount ⊢
      omega
    · rw [outermost, hnone]
      rfl
    · rw [outermost, hone]
      rfl

theorem lookupWithin_pop (env : TypeEnv) (count : Nat) (name : String) :
    env.pop.lookupWithin count name = env.lookupWithin (min count env.pop.depth) name := by
  unfold lookupWithin
  rw [← outermost_min]
  obtain ⟨inner, outer⟩ := env
  cases outer with
  | nil => rfl
  | cons scope rest =>
    have hdepth : (pop ⟨inner, scope :: rest⟩).depth < depth ⟨inner, scope :: rest⟩ := by simp [pop, depth]
    rw [← outermost_apply (Nat.lt_of_le_of_lt (Nat.min_le_right ..) hdepth) .pop, ScopeStep.apply]

theorem lookupWithin_define (env : TypeEnv) (count : Nat) (defined : String) (type : Ty) (name : String) :
    (env.define defined type).lookupWithin count name =
      if env.depth ≤ count ∧ name = defined then some type else env.lookupWithin count name := by
  unfold lookupWithin
  rcases Nat.lt_or_ge count env.depth with hcount | hcount
  · rw [if_neg (by omega), ← outermost_apply hcount (.define defined type), ScopeStep.apply]
  · have hcount' : (env.define defined type).depth ≤ count := hcount
    rw [outermost_of_depth_le hcount, outermost_of_depth_le hcount']
    by_cases hname : name = defined
    · simp [hcount, hname, define, scopes]
    · have hother : List.lookup name ((defined, type) :: env.inner) = env.inner.lookup name := by
        rw [List.lookup_cons, beq_eq_false_iff_ne.mpr hname]
      simp only [hname, and_false, if_false, define, scopes, List.findSome?_cons, hother]

/-! ## Lookup by history -/

-- By induction on the steps, for all numbers of outermost scopes: closing a scope brings back those that
-- were further out.
theorem lookupWithin_run (steps : List ScopeStep) (count : Nat) (name : String) (type : Ty) :
    (empty.run steps).lookupWithin count name = some type ↔
      LatestInnermost (fun earlier type => Stands steps earlier name type ∧ openScopes earlier ≤ count)
        type := by
  induction steps using List.reverseRecOn generalizing count with
  | nil =>
    have hnone : empty.lookupWithin count name = none := by
      rcases Nat.eq_zero_or_pos count with rfl | hcount
      · rfl
      · rw [lookupWithin, outermost_of_depth_le (show empty.depth ≤ count from hcount)]
        rfl
    simp only [run, List.foldl_nil, hnone, reduceCtorEq, false_iff]
    rintro ⟨earlier, ⟨hstands, -⟩, -⟩
    exact absurd hstands.length_lt (Nat.not_lt_zero _)
  | append_singleton steps step ih =>
    rw [run_concat]
    cases step with
    | push =>
      rw [ScopeStep.apply, lookupWithin_push, ih]
      exact latestInnermost_congr fun _ _ => and_congr_left fun _ => stands_push_iff.symm
    | pop =>
      have hdepth : (empty.run steps).pop.depth = openScopes (steps ++ [.pop]) := by
        rw [← depth_run, run_concat, ScopeStep.apply]
      rw [ScopeStep.apply, lookupWithin_pop, ih, hdepth]
      refine latestInnermost_congr fun earlier type => ?_
      rw [stands_pop_iff, Nat.le_min, and_assoc, and_comm (a := openScopes earlier ≤ count)]
    | define defined definedType =>
      rw [ScopeStep.apply, lookupWithin_define, depth_run]
      split
      · rename_i hnew
        obtain ⟨hcount, rfl⟩ := hnew
        rw [Option.some.injEq, eq_comm]
        refine (latestInnermost_iff_of_last ⟨stands_define_iff.mpr (.inl ⟨rfl, rfl, rfl⟩), hcount⟩ ?_).symm
        rintro other otherType ⟨hother, -⟩
        rcases stands_define_iff.mp hother with ⟨rfl, -, rfl⟩ | h
        · exact .inl ⟨rfl, rfl⟩
        · exact .inr ⟨h.length_lt, h.level_le⟩
      · rename_i hold
        rw [ih]
        refine latestInnermost_congr fun earlier type => and_congr_left fun hcount => ?_
        rw [stands_define_iff]
        refine (or_iff_right ?_).symm
        rintro ⟨rfl, rfl, -⟩
        exact hold ⟨hcount, rfl⟩

theorem lookup_run_iff (steps : List ScopeStep) (name : String) (type : Ty) :
    (empty.run steps).lookup? name = some type ↔
      LatestInnermost (fun earlier type => Stands steps earlier name type) type := by
  rw [← lookupWithin_depth, lookupWithin_run, depth_run]
  refine latestInnermost_congr fun earlier type => ?_
  exact ⟨And.left, fun h => ⟨h, h.level_le⟩⟩

theorem lookup_run_eq_none_iff (steps : List ScopeStep) (name : String) :
    (empty.run steps).lookup? name = none ↔ ∀ earlier type, ¬ Stands steps earlier name type := by
  constructor
  · intro h earlier type hstands
    obtain ⟨found, hfound⟩ : ∃ found, LatestInnermost (fun earlier type => Stands steps earlier name type)
        found := exists_latestInnermost hstands fun _ _ => Stands.isPrefix
    rw [(lookup_run_iff steps name found).mpr hfound] at h
    cases h
  · intro h
    cases hlookup : (empty.run steps).lookup? name with
    | none => rfl
    | some type =>
      obtain ⟨earlier, hstands, -⟩ := (lookup_run_iff steps name type).mp hlookup
      exact absurd hstands (h earlier type)

/-! ## Scopes that are closed again -/

-- As long as the scope is open, the ones around it are out of reach.
theorem outermost_run {earlier inside : List ScopeStep} {count : Nat} (hcount : count < openScopes earlier)
    (hopen : StillOpen earlier (earlier ++ inside)) :
    (empty.run (earlier ++ inside)).outermost count = (empty.run earlier).outermost count := by
  induction inside using List.reverseRecOn with
  | nil => rw [List.append_nil]
  | append_singleton inside step ih =>
    rw [← List.append_assoc] at hopen ⊢
    have hbefore := ((stillOpen_concat (List.prefix_append ..)).mp hopen).1
    have hlevel := hbefore _ (List.prefix_append ..) List.prefix_rfl
    rw [run_concat, outermost_apply, ih hbefore]
    rw [depth_run]
    omega

theorem pop_eq_of_outermost {env before : TypeEnv} (hdepth : env.depth = before.depth + 1)
    (h : env.outermost before.depth = before.scopes) : env.pop = before := by
  obtain ⟨inner, outer⟩ := env
  obtain rfl : outer = before.scopes := by
    simpa [outermost, hdepth, scopes] using h
  rfl

/-- A lookup finds the latest definition in the innermost scope still open that has one. -/
theorem lookup_by_history (steps : List ScopeStep) :
    (1 ≤ (empty.run steps).depth ∧ (empty.run steps).depth = openScopes steps) ∧
    (∀ name type, (empty.run (steps ++ [.define name type])).lookup? name = some type) ∧
    (∀ name type, (empty.run steps).lookup? name = some type ↔
      LatestInnermost (fun earlier type => Stands steps earlier name type) type) ∧
    (∀ name, (empty.run steps).lookup? name = none ↔ ∀ earlier type, ¬ Stands steps earlier name type) ∧
    ∀ inside, StillOpen (steps ++ [ScopeStep.push]) (steps ++ [ScopeStep.push] ++ inside) →
      openScopes (steps ++ [ScopeStep.push] ++ inside) = openScopes (steps ++ [ScopeStep.push]) →
      empty.run (steps ++ [ScopeStep.push] ++ inside ++ [ScopeStep.pop]) = empty.run steps := by
  refine ⟨⟨Nat.le_add_left 1 _, depth_run steps⟩, ?_, lookup_run_iff steps, lookup_run_eq_none_iff steps, ?_⟩
  · intro name type
    rw [run_concat, ScopeStep.apply, ← lookupWithin_depth, lookupWithin_define]
    exact if_pos ⟨Nat.le_refl _, rfl⟩
  · intro inside hopen hlevel
    have hopened : openScopes (steps ++ [.push]) = openScopes steps + 1 := openScopes_concat ..
    rw [run_concat, ScopeStep.apply]
    apply pop_eq_of_outermost
    · rw [depth_run, depth_run, hlevel, hopened]
    · rw [depth_run, outermost_run (by omega) hopen, run_concat, ← depth_run]
      simp [ScopeStep.apply, push, outermost, scopes, depth]

/-- A name is hidden twice, the second time in a scope inside of the first, and comes back. -/
theorem hidden_name_comes_back :
    let steps : List ScopeStep := [.define "x" .int]
    let inside : List ScopeStep := [.define "x" .string, .push, .define "x" .boolean, .pop]
    (empty.run (steps ++ [ScopeStep.push] ++ inside)).lookup? "x" = some .string ∧
      empty.run (steps ++ [ScopeStep.push] ++ inside ++ [ScopeStep.pop]) = empty.run steps ∧
      (empty.run (steps ++ [ScopeStep.push] ++ inside ++ [ScopeStep.pop])).lookup? "x" = some .int := by
  intro steps inside
  have hopen : StillOpen (steps ++ [ScopeStep.push]) (steps ++ [ScopeStep.push] ++ inside) := by
    rintro later ⟨part, rfl⟩ hlater
    have hpart := (List.prefix_append_right_inj _).mp hlater
    simp only [inside, List.prefix_cons_iff, List.prefix_nil] at hpart
    rcases hpart with rfl | ⟨_, rfl, rfl | ⟨_, rfl, rfl | ⟨_, rfl, rfl | ⟨_, rfl, rfl⟩⟩⟩⟩ <;> decide
  obtain ⟨-, -, -, -, hclosed⟩ := lookup_by_history steps
  have hback := hclosed inside hopen rfl
  refine ⟨rfl, hback, ?_⟩
  rw [hback]
  rfl

end TypeEnv

end SemanticCheck
