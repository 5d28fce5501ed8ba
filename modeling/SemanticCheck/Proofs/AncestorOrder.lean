import Mathlib.Data.List.Basic
import SemanticCheck.Proofs.MethodChoice

/-!
# The order of ancestors

Ancestors are given to a class in lists, and each list goes before what was known already and takes out of
it the names it has itself. The root stands last from the start and stays there as long as no list names it.
A list that does name it puts it where it stands in the list, which is the end only if everything behind it
is named again by a later list.
-/

namespace SemanticCheck

/-! ## Lists before lists -/

section Lineage

variable {base : List String} {calls later earlier : List (List String)} {call : List String} {x : String}

/-- The name stands in one of the lists. -/
def Named (calls : List (List String)) (x : String) : Prop := ∃ call ∈ calls, x ∈ call

instance (calls : List (List String)) (x : String) : Decidable (Named calls x) :=
  inferInstanceAs (Decidable (∃ call ∈ calls, x ∈ call))

/-- What is known after these lists were given, the latest first, to something that knew `base`. -/
def lineage (base : List String) : List (List String) → List String
  | [] => base
  | call :: earlier => call ++ (lineage base earlier).filter (!call.contains ·)

theorem lineage_append (base : List String) (later earlier : List (List String)) :
    lineage base (later ++ earlier) = lineage (lineage base earlier) later := by
  induction later with
  | nil => rfl
  | cons call later ih => simp only [List.cons_append, lineage, ih]

/-- A name known before is still known unless it was given again, and comes after all that was given. -/
theorem lineage_eq (base : List String) (calls : List (List String)) :
    lineage base calls = lineage [] calls ++ base.filter (¬ Named calls ·) := by
  induction calls with
  | nil => simp [lineage, Named]
  | cons call earlier ih =>
    have hnamed : ∀ x, (¬ Named (call :: earlier) x) ↔ x ∉ call ∧ ¬ Named earlier x := by
      simp [Named]
    simp only [lineage]
    rw [ih, List.filter_append, List.filter_filter, List.append_assoc]
    simp [hnamed]

theorem mem_lineage : x ∈ lineage base calls ↔ Named calls x ∨ x ∈ base := by
  induction calls with
  | nil => simp [lineage, Named]
  | cons call earlier ih =>
    have hnamed : Named (call :: earlier) x ↔ x ∈ call ∨ Named earlier x := by simp [Named]
    simp only [lineage, List.mem_append, List.mem_filter, ih, hnamed]
    by_cases hx : x ∈ call <;> simp [hx]

end Lineage

/-! ## The end of a list -/

section EndsOnce

variable {x : String} {l l' : List String}

/-- The name ends the list and stands nowhere else in it. -/
def EndsOnce (x : String) (l : List String) : Prop := ∃ front, l = front ++ [x] ∧ x ∉ front

theorem endsOnce_iff : EndsOnce x l ↔ l.getLast? = some x ∧ l.count x = 1 := by
  rw [List.getLast?_eq_some_iff]
  constructor
  · rintro ⟨front, rfl, hfront⟩
    exact ⟨⟨front, rfl⟩, by simp [List.count_eq_zero.mpr hfront]⟩
  · rintro ⟨⟨front, rfl⟩, hcount⟩
    refine ⟨front, rfl, List.count_eq_zero.mp ?_⟩
    simpa using hcount

theorem endsOnce_append_of_notMem (hx : x ∉ l) : EndsOnce x (l ++ l') ↔ EndsOnce x l' := by
  rw [endsOnce_iff, endsOnce_iff, List.count_append, List.count_eq_zero.mpr hx, List.getLast?_append,
    Nat.zero_add]
  cases hlast : l'.getLast? with
  | some y => simp
  | none =>
    have hl' : l' = [] := by simpa using hlast
    simp [hl']

theorem endsOnce_append_iff (hx : x ∉ l') : EndsOnce x (l ++ l') ↔ l' = [] ∧ EndsOnce x l := by
  constructor
  · rintro ⟨front, heq, hfront⟩
    rcases List.eq_nil_or_concat' l' with rfl | ⟨init, last, rfl⟩
    · rw [List.append_nil] at heq
      exact ⟨rfl, front, heq, hfront⟩
    · rw [← List.append_assoc] at heq
      have hlast : last = x := by simpa using (List.append_inj_right' heq rfl)
      simp [hlast] at hx
  · rintro ⟨rfl, hl⟩
    simpa using hl

theorem endsOnce_filter_iff {p : String → Bool} (hx : p x = true) :
    EndsOnce x (l.filter p) ↔
      ∃ near below, l = near ++ x :: below ∧ x ∉ near ∧ x ∉ below ∧ ∀ y ∈ below, p y = false := by
  constructor
  · rintro ⟨front, heq, hfront⟩
    obtain ⟨before, rest, rfl, rfl, hrest⟩ := List.filter_eq_append_iff.mp heq
    obtain ⟨skipped, below, rfl, hskipped, -, hbelow⟩ := List.filter_eq_cons_iff.mp hrest
    have hfalse : ∀ y ∈ below, p y = false := by simpa using hbelow
    refine ⟨before ++ skipped, below, by simp, ?_, ?_, hfalse⟩
    · intro hmem
      rcases List.mem_append.mp hmem with hmem | hmem
      · exact hfront (List.mem_filter.mpr ⟨hmem, hx⟩)
      · exact hskipped x hmem hx
    · intro hmem
      rw [hfalse x hmem] at hx
      cases hx
  · rintro ⟨near, below, rfl, hnear, -, hfalse⟩
    have hbelow : below.filter p = [] := by simpa using hfalse
    refine ⟨near.filter p, ?_, fun hmem => hnear (List.mem_of_mem_filter hmem)⟩
    rw [List.filter_append, List.filter_cons_of_pos hx, hbelow]

end EndsOnce

/-! ## A name given among the others -/

section StaysLast

variable {calls later earlier : List (List String)} {call : List String} {x : String}

/-- Either no list names it, or the latest list that does names it once, and every name behind it there
and every name of an earlier list is given again: the former by a later list, the latter by that list or a
later one. -/
def StaysLast (x : String) (calls : List (List String)) : Prop :=
  ¬ Named calls x ∨
    ∃ later near below earlier, calls = later ++ (near ++ x :: below) :: earlier ∧
      ¬ Named later x ∧ x ∉ near ∧ x ∉ below ∧
      (∀ y ∈ below, Named later y) ∧
      ∀ y, Named earlier y → y ∈ near ++ x :: below ∨ Named later y

theorem endsOnce_lineage_of_notNamed (h : ¬ Named calls x) : EndsOnce x (lineage [x] calls) := by
  rw [lineage_eq]
  refine ⟨lineage [] calls, by simp [h], ?_⟩
  rw [mem_lineage]
  simp [h]

theorem endsOnce_lineage_of_latest (hlater : ¬ Named later x) (hcall : x ∈ call) :
    EndsOnce x (lineage [x] (later ++ call :: earlier)) ↔
      (∃ near below, call = near ++ x :: below ∧ x ∉ near ∧ x ∉ below ∧ ∀ y ∈ below, Named later y) ∧
      ∀ y, Named earlier y → y ∈ call ∨ Named later y := by
  have hfront : x ∉ lineage [] later := by
    rw [mem_lineage]
    simp [hlater]
  have hback : x ∉ ((lineage [x] earlier).filter (!call.contains ·)).filter (¬ Named later ·) := by
    simp [hcall]
  have hempty : ((lineage [x] earlier).filter (!call.contains ·)).filter (¬ Named later ·) = [] ↔
      ∀ y, Named earlier y → y ∈ call ∨ Named later y := by
    simp only [List.filter_eq_nil_iff, List.mem_filter, mem_lineage, List.mem_singleton]
    grind
  rw [lineage_append, lineage_eq, endsOnce_append_of_notMem hfront, lineage, List.filter_append,
    endsOnce_append_iff hback, endsOnce_filter_iff (by simpa using hlater), hempty, and_comm]
  simp

theorem exists_latest (h : Named calls x) :
    ∃ later call earlier, calls = later ++ call :: earlier ∧ x ∈ call ∧ ¬ Named later x := by
  obtain ⟨call, hmem, hcall⟩ := h
  have hsome : (calls.find? (·.contains x)).isSome = true := by
    rw [List.find?_isSome]
    exact ⟨call, hmem, by simpa using hcall⟩
  obtain ⟨found, hfound⟩ := Option.isSome_iff_exists.mp hsome
  obtain ⟨later, earlier, rfl, hnames, hlater⟩ := find_eq_some_iff_isFirst.mp hfound
  refine ⟨later, found, earlier, rfl, by simpa using hnames, ?_⟩
  rintro ⟨call, hmem, hcall⟩
  exact hlater call hmem (by simpa using hcall)

theorem endsOnce_lineage_iff : EndsOnce x (lineage [x] calls) ↔ StaysLast x calls := by
  constructor
  · intro hends
    by_cases hnamed : Named calls x
    · obtain ⟨later, call, earlier, rfl, hcall, hlater⟩ := exists_latest hnamed
      obtain ⟨⟨near, below, rfl, hnear, hbelow, hagain⟩, hearlier⟩ :=
        (endsOnce_lineage_of_latest hlater hcall).mp hends
      exact .inr ⟨later, near, below, earlier, rfl, hlater, hnear, hbelow, hagain, hearlier⟩
    · exact .inl hnamed
  · rintro (hnot | ⟨later, near, below, earlier, rfl, hlater, hnear, hbelow, hagain, hearlier⟩)
    · exact endsOnce_lineage_of_notNamed hnot
    · refine (endsOnce_lineage_of_latest hlater (by simp)).mpr ⟨?_, hearlier⟩
      exact ⟨near, below, rfl, hnear, hbelow, hagain⟩

end StaysLast

/-! ## Classes -/

namespace HostClass

/-- A class of the name that was given fields, methods and these lists of ancestors, the latest first. -/
inductive Given (name : String) : List (List String) → HostClass → Prop
  | ofName : Given name [] (.ofName name)
  | extending {calls : List (List String)} {c : HostClass} (ancestors : List String) :
      Given name calls c → Given name (ancestors :: calls) (c.extending ancestors)
  | withField {calls : List (List String)} {c : HostClass} (field : String) (type : Ty) (isStatic : Bool) :
      Given name calls c → Given name calls (c.withField field type isStatic)
  | withMethod {calls : List (List String)} {c : HostClass} (method : String) (params : List Ty)
      (result : Ty) (isStatic : Bool) :
      Given name calls c → Given name calls (c.withMethod method params result isStatic)

variable {name : String} {calls : List (List String)} {c : HostClass}

theorem Given.ancestors_eq (h : Given name calls c) (hname : name ≠ objectName) :
    c.ancestors = lineage [objectName] calls := by
  induction h with
  | ofName => simp [HostClass.ofName, hname, lineage]
  | extending ancestors _ ih => simp only [HostClass.extending, lineage, ih]
  | withField _ _ _ _ ih => exact ih
  | withMethod _ _ _ _ _ ih => exact ih

end HostClass

/-! ## Methods of the root -/

namespace Host

variable {h : Host} {c : HostClass} {near : List String} {r : MethodRequest} {m : HostMethod}

theorem offered_of_instance (hc : h.class? c.name = some c) (howner : r.owner = some c.name)
    (hstatic : r.isStatic = false) :
    h.offered r = c.methods ++ c.ancestors.flatMap h.methodsOf := by
  simp [offered, howner, hc, hstatic]

/-- With the root behind all others, a method of it is the answer only where it takes the arguments and
no nearer method that fits does. -/
theorem method_of_root (hc : h.class? c.name = some c) (howner : r.owner = some c.name)
    (hstatic : r.isStatic = false) (hancestors : c.ancestors = near ++ [objectName])
    (hm : h.method r = .ok m) :
    m ∈ c.methods ++ near.flatMap h.methodsOf ∨
      m ∈ h.methodsOf objectName ∧
        ∀ other ∈ c.methods ++ near.flatMap h.methodsOf, r.Fits other →
          m.Takes r.args ∧ ¬ other.Takes r.args := by
  have hoffered : h.offered r = c.methods ++ near.flatMap h.methodsOf ++ h.methodsOf objectName := by
    simp [offered_of_instance hc howner hstatic, hancestors]
  have hchosen := method_eq_ok_iff.mp hm
  rw [hoffered] at hchosen
  rcases hchosen with hfirst | ⟨-, hfirst⟩
  · rcases isFirst_append hfirst with hfirst | ⟨hnone, hfirst⟩
    · exact .inl hfirst.mem.1
    · obtain ⟨hroot, -, htakes⟩ := hfirst.mem
      exact .inr ⟨hroot, fun other hother hfits => ⟨htakes, fun h => hnone other hother ⟨hfits, h⟩⟩⟩
  · rcases isFirst_append hfirst with hfirst | ⟨hnone, hfirst⟩
    · exact .inl hfirst.mem.1
    · exact .inr ⟨hfirst.mem.1, fun other hother hfits => absurd hfits (hnone other hother)⟩

end Host

/-- The root is the one last ancestor of a class exactly if the lists that it was given leave it there. -/
theorem HostClass.root_last_iff (name : String) (hname : name ≠ objectName)
    (calls : List (List String)) (c : HostClass) (hgiven : c.Given name calls) :
    ((c.ancestors.getLast? = some objectName ∧ c.ancestors.count objectName = 1) ↔
      StaysLast objectName calls) ∧
    (StaysLast objectName calls →
      ∃ near, c.ancestors = near ++ [objectName] ∧ objectName ∉ near ∧
        ∀ (h : Host) (r : MethodRequest) (m : HostMethod), h.class? c.name = some c →
          r.owner = some c.name → r.isStatic = false → h.method r = .ok m →
          m ∈ c.methods ++ near.flatMap h.methodsOf ∨
            m ∈ h.methodsOf objectName ∧
              ∀ other ∈ c.methods ++ near.flatMap h.methodsOf, r.Fits other →
                m.Takes r.args ∧ ¬ other.Takes r.args) := by
  rw [hgiven.ancestors_eq hname, ← endsOnce_iff, ← endsOnce_lineage_iff]
  refine ⟨Iff.rfl, ?_⟩
  rintro ⟨near, hnear, hroot⟩
  refine ⟨near, hnear, hroot, ?_⟩
  intro h r m hc howner hstatic hm
  exact Host.method_of_root hc howner hstatic ((hgiven.ancestors_eq hname).trans hnear) hm

/-! ## Boxes in a shed -/

/-- A chest has a text of its own. -/
def chestClass : HostClass := (HostClass.ofName "shed.Chest").withMethod "toString" [] .string false

/-- A shelf is a chest and a board. The second list takes the board from behind the root. -/
def shelfClass : HostClass :=
  (HostClass.ofName "shed.Shelf").extending ["shed.Chest", objectName, "shed.Board"]
    |>.extending ["shed.Board"]

/-- A box is a chest, but the root is named before that. -/
def boxClass : HostClass := (HostClass.ofName "shed.Box").extending [objectName, "shed.Chest"]

/-- A rack has the root twice. -/
def rackClass : HostClass := (HostClass.ofName "shed.Rack").extending ["shed.Chest", objectName, objectName]

def shedHost : Host :=
  Host.javaLang.addClass chestClass |>.addClass shelfClass |>.addClass boxClass |>.addClass rackClass

/-- What answers a call of `toString`. -/
def textOf (owner : String) : Except ResolutionError HostMethod :=
  shedHost.method (.onInstance owner "toString" [])

theorem HostClass.shelf_root_last :
    shelfClass.Given "shed.Shelf" [["shed.Board"], ["shed.Chest", objectName, "shed.Board"]] ∧
    StaysLast objectName [["shed.Board"], ["shed.Chest", objectName, "shed.Board"]] ∧
    (shelfClass.ancestors.getLast? = some objectName ∧ shelfClass.ancestors.count objectName = 1) ∧
    ∃ near m, shelfClass.ancestors = near ++ [objectName] ∧ textOf "shed.Shelf" = .ok m ∧
      (m ∈ shelfClass.methods ++ near.flatMap shedHost.methodsOf ∨
        m ∈ shedHost.methodsOf objectName ∧
          ∀ other ∈ shelfClass.methods ++ near.flatMap shedHost.methodsOf,
            (MethodRequest.onInstance "shed.Shelf" "toString" []).Fits other →
              m.Takes [] ∧ ¬ other.Takes []) := by
  have hgiven : shelfClass.Given "shed.Shelf" [["shed.Board"], ["shed.Chest", objectName, "shed.Board"]] :=
    .extending _ (.extending _ .ofName)
  have hkept : StaysLast objectName [["shed.Board"], ["shed.Chest", objectName, "shed.Board"]] :=
    .inr ⟨[["shed.Board"]], ["shed.Chest"], ["shed.Board"], [], rfl, by decide, by decide, by decide,
      by decide, by simp [Named]⟩
  obtain ⟨hlast, hlookup⟩ := HostClass.root_last_iff "shed.Shelf" (by decide) _ shelfClass hgiven
  obtain ⟨near, hnear, -, hanswer⟩ := hlookup hkept
  have htext : textOf "shed.Shelf" = .ok ⟨"shed.Chest", "toString", [], .string, false⟩ := rfl
  exact ⟨hgiven, hkept, hlast.mpr hkept, near, _, hnear, htext, hanswer shedHost _ _ rfl rfl rfl htext⟩

/-- A list that names the root before a nearer ancestor leaves it there, and the text of a box is then that
of the root. A list that names it twice leaves it there twice. -/
theorem HostClass.box_root_first :
    (boxClass.Given "shed.Box" [[objectName, "shed.Chest"]] ∧ boxClass.name ≠ objectName ∧
      boxClass.ancestors.getLast? ≠ some objectName ∧
      textOf "shed.Box" = .ok ⟨objectName, "toString", [], .string, false⟩) ∧
    rackClass.Given "shed.Rack" [["shed.Chest", objectName, objectName]] ∧
      rackClass.name ≠ objectName ∧ rackClass.ancestors.count objectName ≠ 1 :=
  ⟨⟨.extending _ .ofName, by decide, by decide, rfl⟩, .extending _ .ofName, by decide, by decide⟩

end SemanticCheck
