import Mathlib.Data.Prod.Lex
import Mathlib.Order.Compare
import Mathlib.Order.WithBot
import SemanticCheck.Text.Diagnostic

/-!
# Source order

Positions are ordered by their start and then by their end, and a diagnostic without one comes after all
that have one. Two diagnostics are level only when they are at the same place, so what a log shows is
settled by the order and the recording: by what was recorded at each place, in which order. However a log
came about, there is one list that shows it.
-/

namespace SemanticCheck

/-! ## The order of positions -/

instance : Std.TransOrd Point :=
  inferInstanceAs (Std.TransCmp (compareLex (compareOn Point.line) (compareOn Point.column)))

instance : Std.TransCmp Position.order :=
  inferInstanceAs (Std.TransCmp (compareLex (compareOn Position.start) (compareOn Position.stop)))

theorem Point.eq_of_order {a b : Point} (h : a.order b = .eq) : a = b := by
  simp only [order, Ordering.then_eq_eq, Nat.compare_eq_eq] at h
  obtain ⟨hline, hcolumn⟩ := h
  cases a
  cases b
  simp_all

theorem Position.eq_of_order {a b : Position} (h : a.order b = .eq) : a = b := by
  simp only [order, Ordering.then_eq_eq] at h
  obtain ⟨hstart, hstop⟩ := h
  have hstart := Point.eq_of_order hstart
  have hstop := Point.eq_of_order hstop
  cases a
  cases b
  simp_all

/-- The four numbers of a position, compared from the first on. -/
def Position.key (p : Position) : Nat ×ₗ Nat ×ₗ Nat ×ₗ Nat :=
  toLex (p.start.line, toLex (p.start.column, toLex (p.stop.line, p.stop.column)))

theorem Position.order_eq_cmp (p q : Position) : p.order q = cmp p.key q.key := by
  rw [cmp_eq_compare]
  simp only [order, Point.order, Ordering.then_assoc, key, Prod.Lex.compare_def, compareLex, compareOn,
    ofLex_toLex]

/-! ## The order of diagnostics -/

namespace Diagnostic

/-- The key of the position; having none stands above all positions. -/
def key (d : Diagnostic) : WithTop (Nat ×ₗ Nat ×ₗ Nat ×ₗ Nat) :=
  match d.pos with
  | some p => (p.key : WithTop (Nat ×ₗ Nat ×ₗ Nat ×ₗ Nat))
  | none => ⊤

theorem sourceOrder_eq_cmp (a b : Diagnostic) : sourceOrder a b = cmp a.key b.key := by
  unfold sourceOrder key
  cases a.pos with
  | none =>
    cases b.pos with
    | none => exact (cmp_self_eq_eq _).symm
    | some q => exact (WithTop.coe_lt_top q.key).cmp_eq_gt.symm
  | some p =>
    cases b.pos with
    | none => exact (WithTop.coe_lt_top p.key).cmp_eq_lt.symm
    | some q => exact (p.order_eq_cmp q).trans (WithTop.coe_strictMono.cmp_map_eq p.key q.key).symm

theorem sourceOrder_eq_iff {a b : Diagnostic} : sourceOrder a b = .eq ↔ a.pos = b.pos := by
  unfold sourceOrder
  cases a.pos with
  | none => cases b.pos <;> simp
  | some p =>
    cases b.pos with
    | none => simp
    | some q =>
      simp only [Option.some.injEq]
      refine ⟨Position.eq_of_order, ?_⟩
      rintro rfl
      exact Std.ReflCmp.compare_self

instance : Std.TransCmp sourceOrder where
  eq_swap {a b} := by
    unfold sourceOrder
    cases a.pos <;> cases b.pos
    case some.some p q => exact (Std.OrientedCmp.eq_swap : p.order q = (q.order p).swap)
    all_goals rfl
  isLE_trans {a b c} hab hbc := by
    unfold sourceOrder at *
    cases ha : a.pos <;> cases hb : b.pos <;> cases hc : c.pos <;> simp only [ha, hb, hc] at hab hbc ⊢
    case some.some.some p q r =>
      exact (Std.TransCmp.isLE_trans : (p.order q).isLE → (q.order r).isLE → (p.order r).isLE) hab hbc
    all_goals simp_all

theorem notAfter_trans (a b c : Diagnostic) (hab : a.notAfter b = true) (hbc : b.notAfter c = true) :
    a.notAfter c = true := Std.TransCmp.isLE_trans hab hbc

theorem notAfter_total (a b : Diagnostic) : (a.notAfter b || b.notAfter a) = true := by
  have hswap : sourceOrder b a = (sourceOrder a b).swap := Std.OrientedCmp.eq_swap
  unfold notAfter
  rw [hswap]
  cases sourceOrder a b <;> rfl

theorem notAfter_of_same_place {a b : Diagnostic} (h : a.pos = b.pos) : a.notAfter b = true := by
  unfold notAfter
  rw [sourceOrder_eq_iff.mpr h]
  rfl

theorem same_place_of_notAfter {a b : Diagnostic} (hab : a.notAfter b = true) (hba : b.notAfter a = true) :
    a.pos = b.pos :=
  sourceOrder_eq_iff.mp (Std.OrientedCmp.isLE_antisymm hab hba)

end Diagnostic

/-! ## What a log shows -/

/-- The same diagnostics in source order, and those at one place as they were recorded. -/
structure StablySorted (recorded shown : List Diagnostic) : Prop where
  perm : shown.Perm recorded
  ordered : shown.Pairwise fun a b => a.notAfter b = true
  stable : ∀ pos, shown.filter (·.pos == pos) = recorded.filter (·.pos == pos)

theorem Log.stablySorted (log : Log) : StablySorted log.entries log.sorted := by
  have hperm : log.sorted.Perm log.entries := List.mergeSort_perm _ _
  refine ⟨hperm, List.pairwise_mergeSort Diagnostic.notAfter_trans Diagnostic.notAfter_total _, ?_⟩
  intro pos
  have hlevel : (log.entries.filter (·.pos == pos)).Pairwise fun a b => a.notAfter b = true := by
    rw [List.pairwise_iff_forall_sublist]
    intro a b hab
    have ha := hab.subset (List.mem_cons_self ..)
    have hb := hab.subset (List.mem_cons_of_mem _ (List.mem_cons_self ..))
    simp only [List.mem_filter, beq_iff_eq] at ha hb
    exact Diagnostic.notAfter_of_same_place (ha.2.trans hb.2.symm)
  -- A part of the recording that is in order already is found again in what is shown.
  have hsub : (log.entries.filter (·.pos == pos)).Sublist log.sorted :=
    List.sublist_mergeSort Diagnostic.notAfter_trans Diagnostic.notAfter_total hlevel List.filter_sublist
  have hsub' := hsub.filter (·.pos == pos)
  simp only [List.filter_filter, Bool.and_self] at hsub'
  exact (hsub'.eq_of_length (hperm.filter _).length_eq.symm).symm

theorem StablySorted.nil_iff {recorded shown : List Diagnostic} (h : StablySorted recorded shown) :
    shown = [] ↔ recorded = [] := by
  rw [← List.length_eq_zero_iff, h.perm.length_eq, List.length_eq_zero_iff]

/-! ## The one list that shows a log -/

/-- Both lists have the same diagnostics in the same order at each position, and without one. -/
def SamePlaces (l l' : List Diagnostic) : Prop :=
  ∀ pos, l.filter (·.pos == pos) = l'.filter (·.pos == pos)

namespace SamePlaces

variable {l l' m m' : List Diagnostic}

theorem symm (h : SamePlaces l l') : SamePlaces l' l := fun pos => (h pos).symm

theorem trans (h : SamePlaces l l') (h' : SamePlaces l' m) : SamePlaces l m :=
  fun pos => (h pos).trans (h' pos)

theorem append (h : SamePlaces l l') (h' : SamePlaces m m') : SamePlaces (l ++ m) (l' ++ m') := by
  intro pos
  rw [List.filter_append, List.filter_append, h pos, h' pos]

theorem mem (h : SamePlaces l l') {d : Diagnostic} (hd : d ∈ l) : d ∈ l' := by
  have hplace : d ∈ l.filter (·.pos == d.pos) := by simp [hd]
  rw [h d.pos] at hplace
  exact (List.mem_filter.mp hplace).1

theorem tail {a : Diagnostic} (h : SamePlaces (a :: l) (a :: l')) : SamePlaces l l' := by
  intro pos
  have hpos := h pos
  simp only [List.filter_cons] at hpos
  split at hpos
  · exact (List.cons.inj hpos).2
  · exact hpos

end SamePlaces

theorem head_notAfter {a b : Diagnostic} {rest : List Diagnostic}
    (h : (a :: rest).Pairwise fun a b => a.notAfter b = true) (hb : b ∈ a :: rest) : a.notAfter b = true := by
  rcases List.mem_cons.mp hb with rfl | hb
  · exact Diagnostic.notAfter_of_same_place rfl
  · exact List.rel_of_pairwise_cons h hb

-- Each head stands in the other list too and so not before its head: they are at one place, and the
-- first ones there.
theorem SamePlaces.eq_of_ordered {l l' : List Diagnostic} (h : SamePlaces l l')
    (hl : l.Pairwise fun a b => a.notAfter b = true) (hl' : l'.Pairwise fun a b => a.notAfter b = true) :
    l = l' := by
  induction l generalizing l' with
  | nil =>
    cases l' with
    | nil => rfl
    | cons b rest' => simpa using h.symm.mem List.mem_cons_self
  | cons a rest ih =>
    cases l' with
    | nil => simpa using h.mem List.mem_cons_self
    | cons b rest' =>
      have hab : a.notAfter b = true := head_notAfter hl (h.symm.mem List.mem_cons_self)
      have hba : b.notAfter a = true := head_notAfter hl' (h.mem List.mem_cons_self)
      have hfirst := h a.pos
      simp only [List.filter_cons, Diagnostic.same_place_of_notAfter hab hba, beq_self_eq_true, if_true,
        List.cons.injEq] at hfirst
      obtain ⟨rfl, -⟩ := hfirst
      rw [ih h.tail hl.of_cons hl'.of_cons]

theorem Log.sorted_samePlaces (log : Log) : SamePlaces log.sorted log.entries := log.stablySorted.stable

theorem Log.sorted_eq_of_samePlaces {log log' : Log} (h : SamePlaces log.entries log'.entries) :
    log.sorted = log'.sorted :=
  ((log.sorted_samePlaces.trans h).trans log'.sorted_samePlaces.symm).eq_of_ordered
    log.stablySorted.ordered log'.stablySorted.ordered

theorem Log.stablySorted_iff {log : Log} {shown : List Diagnostic} :
    StablySorted log.entries shown ↔ shown = log.sorted := by
  constructor
  · intro h
    have hplaces : SamePlaces shown log.entries := h.stable
    exact (hplaces.trans log.sorted_samePlaces.symm).eq_of_ordered h.ordered log.stablySorted.ordered
  · rintro rfl
    exact log.stablySorted

/-- How a log came about. -/
inductive Recording where
  | start
  | record (earlier : Recording) (pos : Option Position) (message : String)
  | merge (earlier other : Recording)

namespace Recording

def log : Recording → Log
  | start => .empty
  | record earlier pos message => earlier.log.record pos message
  | merge earlier other => earlier.log.merge other.log

/-- Everything that was ever recorded, the earliest first; what is merged in counts as recorded then. -/
def recorded : Recording → List Diagnostic
  | start => []
  | record earlier pos message => earlier.recorded ++ [⟨pos, message⟩]
  | merge earlier other => earlier.recorded ++ other.recorded

theorem entries_log (r : Recording) : r.log.entries = r.recorded := by
  induction r with
  | start => rfl
  | record earlier pos message ih => rw [log, recorded, Log.entries_record, ih]
  | merge earlier other ih ih' => rw [log, recorded, Log.entries_merge, ih, ih']

/-- A log is shown in the one order that is sorted by place and keeps the order of recording at each place. -/
theorem sorted_is_only_stable_order (r : Recording) :
    (∀ a b, Diagnostic.sourceOrder a b = cmp a.key b.key) ∧
    (∀ shown, StablySorted r.recorded shown ↔ shown = r.log.sorted) ∧
    Log.sorted ⟨r.log.sorted⟩ = r.log.sorted ∧
    ∀ other : Recording,
      (r.log.merge other.log).sorted = Log.sorted ⟨r.log.sorted ++ other.log.sorted⟩ := by
  refine ⟨Diagnostic.sourceOrder_eq_cmp, ?_, ?_, ?_⟩
  · intro shown
    rw [← r.entries_log]
    exact Log.stablySorted_iff
  · exact Log.sorted_eq_of_samePlaces r.log.sorted_samePlaces
  · intro other
    refine Log.sorted_eq_of_samePlaces ?_
    exact (r.log.sorted_samePlaces.append other.log.sorted_samePlaces).symm

end Recording

end SemanticCheck
