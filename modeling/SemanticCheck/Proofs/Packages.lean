import SemanticCheck.Proofs.DottedNames
import SemanticCheck.Proofs.Reordering
import SemanticCheck.Proofs.Tables

/-!
# Packages

A package exists if the first link of a chain has it, or a later one that all links before it ask on for.
A batch has the namespaces of its files and what is around them, a host the packages of its classes and
what is around them. Both sets are built from the outermost package inwards, so that what encloses a package
exists with it, unless a segment of a namespace has a dot of its own.
-/

namespace SemanticCheck

/-! ## Links -/

namespace Chain

/-- The packages that the first link has by itself. -/
def ownPackages : Chain → List String
  | nothing | emptyHost => []
  | host h => h.packages
  | source batch _ _ => batch.index.packages

/-- The links before the `n`-th are batches that packages are looked for behind. -/
def HandsOn (chain : Chain) (n : Nat) : Prop :=
  ∀ k < n, ∃ batch outer, chain.link k = source batch true outer

theorem handsOn_succ {chain : Chain} {n : Nat} :
    chain.HandsOn (n + 1) ↔ (∃ batch, chain = source batch true chain.outer) ∧ chain.outer.HandsOn n := by
  constructor
  · intro h
    obtain ⟨batch, outer, hchain⟩ := h 0 (by omega)
    obtain rfl : chain = source batch true outer := hchain
    exact ⟨⟨batch, rfl⟩, fun k hk => h (k + 1) (by omega)⟩
  · rintro ⟨⟨batch, hchain⟩, houter⟩ k hk
    cases k with
    | zero => exact ⟨batch, chain.outer, hchain⟩
    | succ k => exact houter k (by omega)

theorem hasPackage_step (chain : Chain) (p : String) :
    chain.hasPackage p = true ↔ p ∈ chain.ownPackages ∨
      (∃ batch, chain = source batch true chain.outer) ∧ chain.outer.hasPackage p = true := by
  cases chain <;> simp [hasPackage, Host.hasPackage, ownPackages, outer]

theorem hasPackage_iff (chain : Chain) (p : String) :
    chain.hasPackage p = true ↔ ∃ n, p ∈ (chain.link n).ownPackages ∧ chain.HandsOn n := by
  have hlink : ∀ chain : Chain, ((∃ batch, chain = source batch true chain.outer) →
      (chain.outer.hasPackage p = true ↔
        ∃ n, p ∈ (chain.outer.link n).ownPackages ∧ chain.outer.HandsOn n)) →
      (chain.hasPackage p = true ↔ ∃ n, p ∈ (chain.link n).ownPackages ∧ chain.HandsOn n) := by
    intro chain houter
    rw [hasPackage_step]
    constructor
    · rintro (hown | ⟨hchain, hpackage⟩)
      · exact ⟨0, hown, fun k hk => absurd hk (by omega)⟩
      · obtain ⟨n, hown, hbefore⟩ := (houter hchain).mp hpackage
        exact ⟨n + 1, hown, handsOn_succ.mpr ⟨hchain, hbefore⟩⟩
    · rintro ⟨n, hown, hbefore⟩
      cases n with
      | zero => exact .inl hown
      | succ n =>
        obtain ⟨hchain, hbefore⟩ := handsOn_succ.mp hbefore
        exact .inr ⟨hchain, (houter hchain).mpr ⟨n, hown, hbefore⟩⟩
  induction chain with
  | source batch delegates outer ih => exact hlink _ fun _ => ih
  | nothing | emptyHost | host h =>
    refine hlink _ ?_
    rintro ⟨batch, hchain⟩
    cases hchain

end Chain

/-! ## Batches -/

theorem QualifiedName.mem_enclosingTexts {name : QualifiedName} {p : String} :
    p ∈ name.enclosingTexts ↔
      ∃ run, run ≠ [] ∧ run <+: name.segments ∧ p = ".".intercalate run := by
  simp only [enclosingTexts, List.mem_map, List.mem_range, joinDots_eq_intercalate]
  constructor
  · rintro ⟨n, hn, rfl⟩
    refine ⟨name.segments.take (n + 1), ?_, List.take_prefix _ _, rfl⟩
    simp [name.ne_nil]
  · rintro ⟨run, hne, hrun, rfl⟩
    have hpos := List.length_pos_iff.mpr hne
    have hlength := hrun.length_le
    refine ⟨run.length - 1, by omega, ?_⟩
    rw [Nat.sub_add_cancel hpos, ← List.prefix_iff_eq_take.mp hrun]

theorem Batch.mem_packages {batch : Batch} {p : String} :
    p ∈ batch.index.packages ↔ ∃ f ∈ batch.files, ∃ run, run ≠ [] ∧
      run <+: f.namespaceName.segments ∧ p = ".".intercalate run := by
  rw [batch.indexed, BatchIndex.packages_ofFiles, List.mem_flatMap]
  simp only [QualifiedName.mem_enclosingTexts]

/-! ## Hosts -/

theorem Host.FilledWith.packages_eq {added : List HostClass} {functions : List HostMethod} {h : Host}
    (hfilled : FilledWith added functions h) : h.packages = added.flatMap packagesOf := by
  induction hfilled with
  | empty => rfl
  | addClass c _ ih => simp [Host.addClass, ih]
  | addFunction name params result _ ih => exact ih

/-- The package itself, or one that the package is inside of. -/
def Encloses (p package : String) : Prop := p = package ∨ ∃ rest, package = p ++ "." ++ rest

/-- What encloses a package is made up of the first pieces of its text. -/
theorem encloses_iff {p package : String} :
    Encloses p package ↔ ∃ run, run ≠ [] ∧ run <+: dotPieces package ∧ p = ".".intercalate run := by
  have hpieces := piecesOf_dotPieces p
  constructor
  · rintro (rfl | ⟨rest, rfl⟩)
    · exact ⟨dotPieces p, hpieces.ne_nil, List.prefix_rfl, hpieces.joined.symm⟩
    · rw [dotPieces_join]
      exact ⟨dotPieces p, hpieces.ne_nil, List.prefix_append _ _, hpieces.joined.symm⟩
  · rintro ⟨run, hne, ⟨others, hrun⟩, rfl⟩
    have hjoined := (piecesOf_dotPieces package).joined
    rw [← hrun] at hjoined
    by_cases hothers : others = []
    · left
      rw [← hjoined, hothers, List.append_nil]
    · right
      rw [String.intercalate_append_of_ne_nil hne hothers] at hjoined
      exact ⟨_, hjoined.symm⟩

namespace Host

/-- Packages are opened inside of one another, as long as the outer one has a name. -/
theorem mem_packagesFrom {outer p : String} (houter : outer ≠ "") {segments : List String} :
    p ∈ outer :: packagesFrom outer segments ↔
      ∃ run, run <+: segments ∧ p = ".".intercalate (outer :: run) := by
  induction segments generalizing outer with
  | nil => simp [packagesFrom]
  | cons segment rest ih =>
    have hinner : qualify outer segment ≠ "" := by
      rw [qualify_of_ne houter]
      simp
    have hjoin : ∀ run, ".".intercalate (qualify outer segment :: run)
        = ".".intercalate (outer :: segment :: run) := by
      intro run
      rw [qualify_of_ne houter, String.intercalate_cons_append, String.intercalate_cons_cons]
    rw [packagesFrom, List.mem_cons, ih hinner]
    simp only [hjoin]
    constructor
    · rintro (rfl | ⟨run, hrun, rfl⟩)
      · exact ⟨[], List.nil_prefix, by simp⟩
      · exact ⟨segment :: run, by simpa using hrun, rfl⟩
    · rintro ⟨run, hrun, rfl⟩
      cases run with
      | nil => exact .inl (by simp)
      | cons first run =>
        obtain ⟨rfl, htail⟩ := List.cons_prefix_cons.mp hrun
        exact .inr ⟨run, htail, rfl⟩

/-- A class whose name begins with no dot has its package and what is around it. -/
theorem mem_packagesOf {c : HostClass} {p : String} (hname : c.name.toList.head? ≠ some '.') :
    p ∈ packagesOf c ↔ ∃ package, c.package? = some package ∧ Encloses p package := by
  unfold packagesOf
  cases hpackage : c.package? with
  | none => simp
  | some package =>
    obtain ⟨⟨front, last⟩, hsplit, rfl⟩ := Option.map_eq_some_iff.mp hpackage
    have hpieces := piecesOf_dotPieces front
    obtain ⟨first, others, hcut⟩ := List.exists_cons_of_ne_nil hpieces.ne_nil
    -- With an empty first piece the name of the class would begin with a dot.
    have hfirst : first ≠ "" := by
      rintro rfl
      apply hname
      rw [(splitLastDot_eq_some_iff.mp hsplit).1, ← hpieces.joined, hcut]
      cases others <;> simp
    have hfrom : packagesFrom "" (dotPieces front) = first :: packagesFrom first others := by
      rw [hcut]
      rfl
    show p ∈ packagesFrom "" (dotPieces front) ↔ _
    rw [hfrom, mem_packagesFrom hfirst]
    simp only [Option.some.injEq, exists_eq_left', encloses_iff, hcut]
    constructor
    · rintro ⟨run, hrun, rfl⟩
      exact ⟨first :: run, by simp, by simpa using hrun, rfl⟩
    · rintro ⟨run, hne, hrun, rfl⟩
      obtain ⟨head, run, rfl⟩ := List.exists_cons_of_ne_nil hne
      obtain ⟨rfl, htail⟩ := List.cons_prefix_cons.mp hrun
      exact ⟨run, htail, rfl⟩

end Host

/-! ## Packages around packages -/

/-- Where segments without dots open packages, the package around one of these is the one before it. -/
theorem Host.front_of_packagesFrom {outer p front last : String} {segments : List String}
    (hdotless : ∀ segment ∈ segments, hasDot segment = false) (hp : p ∈ packagesFrom outer segments)
    (hsplit : splitLastDot p = some (front, last)) :
    front ∈ packagesFrom outer segments ∨ (front = outer ∧ outer ≠ "") := by
  induction segments generalizing outer with
  | nil => simp [packagesFrom] at hp
  | cons segment rest ih =>
    have hsegment := hdotless segment (by simp)
    rcases List.mem_cons.mp hp with rfl | hp
    · by_cases houter : outer = ""
      · have hbare : qualify outer segment = segment := by simp [qualify, houter]
        rw [hbare, splitLastDot_eq_none_iff.mpr hsegment] at hsplit
        cases hsplit
      · rw [qualify_of_ne houter, splitLastDot_append outer hsegment] at hsplit
        cases hsplit
        exact .inr ⟨rfl, houter⟩
    · have hrest := ih (fun segment h => hdotless segment (List.mem_cons_of_mem _ h)) hp
      left
      rw [packagesFrom, List.mem_cons]
      rcases hrest with hfront | ⟨rfl, -⟩
      · exact .inr hfront
      · exact .inl rfl

theorem Host.front_of_packagesOf {c : HostClass} {p front last : String} (hp : p ∈ packagesOf c)
    (hsplit : splitLastDot p = some (front, last)) : front ∈ packagesOf c := by
  unfold packagesOf at hp ⊢
  cases hpackage : c.package? with
  | none => simp [hpackage] at hp
  | some package =>
    simp only [hpackage] at hp ⊢
    have hdotless : ∀ piece ∈ dotPieces package, hasDot piece = false := by
      simpa [hasDot] using (piecesOf_dotPieces package).dotless
    rcases front_of_packagesFrom hdotless hp hsplit with hfront | ⟨-, houter⟩
    · exact hfront
    · exact absurd rfl houter

theorem intercalate_concat {run : List String} (hne : run ≠ []) (segment : String) :
    ".".intercalate (run ++ [segment]) = ".".intercalate run ++ "." ++ segment := by
  rw [String.intercalate_append_of_ne_nil hne (by simp), String.intercalate_singleton]

/-- The last segment of a run decides whether its text is split before it. -/
theorem QualifiedName.front_of_enclosingTexts {name : QualifiedName} {p front last : String}
    (hp : p ∈ name.enclosingTexts) (hsplit : splitLastDot p = some (front, last)) :
    front ∈ name.enclosingTexts ∨ ∃ run segment, run ++ [segment] <+: name.segments ∧
      p = ".".intercalate (run ++ [segment]) ∧ hasDot segment = true := by
  obtain ⟨whole, hne, hprefix, rfl⟩ := mem_enclosingTexts.mp hp
  obtain ⟨run, segment, rfl⟩ : ∃ run segment, whole = run ++ [segment] :=
    ⟨_, _, (List.dropLast_concat_getLast hne).symm⟩
  cases hdot : hasDot segment with
  | true => exact .inr ⟨run, segment, hprefix, rfl, hdot⟩
  | false =>
    left
    by_cases hrun : run = []
    · subst hrun
      rw [List.nil_append, String.intercalate_singleton, splitLastDot_eq_none_iff.mpr hdot] at hsplit
      cases hsplit
    · rw [intercalate_concat hrun, splitLastDot_append _ hdot] at hsplit
      cases hsplit
      exact mem_enclosingTexts.mpr ⟨run, hrun, (List.prefix_append _ _).trans hprefix, rfl⟩

theorem length_intercalate_le {run whole : List String} (hne : run ≠ []) (h : run <+: whole) :
    (".".intercalate run).length ≤ (".".intercalate whole).length := by
  obtain ⟨others, rfl⟩ := h
  by_cases hothers : others = []
  · rw [hothers, List.append_nil]
  · rw [String.intercalate_append_of_ne_nil hne hothers, String.length_append, String.length_append]
    omega

/-- The front of a dotted segment is longer than all before the segment, and shorter than all up to it. -/
theorem QualifiedName.front_notMem_enclosingTexts {name : QualifiedName} {run : List String}
    {segment front last : String} (hne : run ≠ []) (hrun : run ++ [segment] <+: name.segments)
    (hsegment : segment = front ++ "." ++ last) :
    ".".intercalate run ++ "." ++ front ∉ name.enclosingTexts := by
  intro hmem
  obtain ⟨other, hother, hprefix, htext⟩ := mem_enclosingTexts.mp hmem
  have hdot : ".".length = 1 := rfl
  have hlength := congrArg String.length htext
  have hshorter : (".".intercalate run ++ "." ++ front).length
      < (".".intercalate (run ++ [segment])).length := by
    rw [intercalate_concat hne, hsegment]
    simp only [String.length_append]
    omega
  rcases List.prefix_or_prefix_of_prefix hprefix hrun with hbefore | hbehind
  · rcases List.prefix_concat_iff.mp hbefore with rfl | hbefore
    · omega
    · have hle := length_intercalate_le hother hbefore
      simp only [String.length_append] at hlength
      omega
  · have hle := length_intercalate_le (by simp) hbehind
    omega

/-- Around the packages of a namespace are packages of it exactly when no segment has a dot. -/
theorem QualifiedName.fronts_enclose_iff (name : QualifiedName) :
    (∀ front last, hasDot last = false → front ++ "." ++ last ∈ name.enclosingTexts →
      front ∈ name.enclosingTexts) ↔ ∀ segment ∈ name.segments, hasDot segment = false := by
  constructor
  · intro hclosed segment hsegment
    by_contra hdot
    obtain ⟨⟨inner, last⟩, hsplit⟩ := Option.ne_none_iff_exists'.mp (mt splitLastDot_eq_none_iff.mp hdot)
    obtain ⟨hjoined, hlast⟩ := splitLastDot_eq_some_iff.mp hsplit
    obtain ⟨run, rest, hsegments⟩ := List.append_of_mem hsegment
    have hrun : run ++ [segment] <+: name.segments := ⟨rest, by simp [hsegments]⟩
    -- The first segment is a proper one.
    have hne : run ≠ [] := by
      rintro rfl
      obtain ⟨first, others, hfirst, -, hdotless⟩ := name.exists_first
      obtain ⟨rfl, -⟩ := List.cons.inj (hsegments.symm.trans hfirst)
      simp [hasDot, hdotless] at hdot
    refine front_notMem_enclosingTexts hne hrun hjoined (hclosed _ last hlast ?_)
    refine mem_enclosingTexts.mpr ⟨_, by simp, hrun, ?_⟩
    rw [intercalate_concat hne, hjoined]
    simp [String.append_assoc]
  · intro hdotless front last hlast hmem
    rcases front_of_enclosingTexts hmem (splitLastDot_append front hlast) with
      hfront | ⟨run, segment, hrun, -, hdot⟩
    · exact hfront
    · rw [hdotless segment (hrun.subset (by simp))] at hdot
      cases hdot

namespace Chain

/-- Every host in the chain was filled with classes, whatever their names. -/
def HostsFilled (chain : Chain) : Prop := ∀ n h, chain.link n = host h →
  ∃ added functions, Host.FilledWith added functions h

/-- The file is in a batch of the chain. -/
def HasFile (chain : Chain) (f : SourceFile) : Prop :=
  ∃ n batch delegates outer, chain.link n = source batch delegates outer ∧ f ∈ batch.files

/-- The package around a package is in the same link, unless the last segment of a namespace that ends there
has a dot of its own. -/
theorem front_of_hasPackage {chain : Chain} (hfilled : chain.HostsFilled) {p front last : String}
    (hp : chain.hasPackage p = true) (hsplit : splitLastDot p = some (front, last)) :
    chain.hasPackage front = true ∨ ∃ f, chain.HasFile f ∧ ∃ run segment,
      run ++ [segment] <+: f.namespaceName.segments ∧ p = ".".intercalate (run ++ [segment]) ∧
        hasDot segment = true := by
  obtain ⟨n, hown, hbefore⟩ := (chain.hasPackage_iff p).mp hp
  rw [chain.hasPackage_iff front]
  cases hlink : chain.link n with
  | nothing | emptyHost => simp [hlink, ownPackages] at hown
  | host h =>
    left
    obtain ⟨added, functions, hadded⟩ := hfilled n h hlink
    rw [hlink, ownPackages, hadded.packages_eq, List.mem_flatMap] at hown
    obtain ⟨c, hc, hpackage⟩ := hown
    refine ⟨n, ?_, hbefore⟩
    rw [hlink, ownPackages, hadded.packages_eq, List.mem_flatMap]
    exact ⟨c, hc, Host.front_of_packagesOf hpackage hsplit⟩
  | source batch delegates outer =>
    rw [hlink, ownPackages, batch.indexed, BatchIndex.packages_ofFiles, List.mem_flatMap] at hown
    obtain ⟨f, hf, hpackage⟩ := hown
    rcases QualifiedName.front_of_enclosingTexts hpackage hsplit with hfront | hdotted
    · refine .inl ⟨n, ?_, hbefore⟩
      rw [hlink, ownPackages, batch.indexed, BatchIndex.packages_ofFiles, List.mem_flatMap]
      exact ⟨f, hf, hfront⟩
    · exact .inr ⟨f, ⟨n, batch, delegates, outer, hlink, hf⟩, hdotted⟩

/-- A batch of one file that asks nothing behind it has what encloses the namespace of the file. -/
theorem hasPackage_single {batch : Batch} {f : SourceFile} (hfiles : batch.files = [f]) {outer : Chain}
    {p : String} : (source batch false outer).hasPackage p = true ↔ p ∈ f.namespaceName.enclosingTexts := by
  rw [hasPackage_step]
  simp [ownPackages, batch.indexed, BatchIndex.packages_ofFiles, hfiles]

/-- Packages are looked for link by link, and what is around one exists too where no segment has a dot. -/
theorem packages_by_link (chain : Chain) :
    (∀ p, chain.hasPackage p = true ↔ ∃ n, p ∈ (chain.link n).ownPackages ∧
      ∀ k < n, ∃ batch outer, chain.link k = source batch true outer) ∧
    (∀ batch delegates outer p, p ∈ (source batch delegates outer).ownPackages ↔
      ∃ f ∈ batch.files, ∃ run, run ≠ [] ∧ run <+: f.namespaceName.segments ∧
        p = ".".intercalate run) ∧
    (∀ added functions h, Host.FilledWith added functions h →
      (∀ c ∈ added, c.name.toList.head? ≠ some '.') → ∀ p, p ∈ (host h).ownPackages ↔
        ∃ c ∈ added, ∃ package, c.package? = some package ∧ Encloses p package) ∧
    (chain.HostsFilled → (∀ f, chain.HasFile f → f.namespaceName.Proper) →
      ∀ front last, hasDot last = false → chain.hasPackage (front ++ "." ++ last) = true →
        chain.hasPackage front = true) ∧
    (chain.HostsFilled → ∀ front last, hasDot last = false →
      chain.hasPackage (front ++ "." ++ last) = true → chain.hasPackage front = true ∨
        ∃ f, chain.HasFile f ∧ ∃ run segment, run ++ [segment] <+: f.namespaceName.segments ∧
          front ++ "." ++ last = ".".intercalate (run ++ [segment]) ∧ hasDot segment = true) ∧
    ∀ (batch : Batch) (f : SourceFile), batch.files = [f] →
      ((∀ front last, hasDot last = false →
        (source batch false chain).hasPackage (front ++ "." ++ last) = true →
          (source batch false chain).hasPackage front = true) ↔
        ∀ segment ∈ f.namespaceName.segments, hasDot segment = false) := by
  refine ⟨chain.hasPackage_iff, fun batch delegates outer p => Batch.mem_packages, ?_, ?_, ?_, ?_⟩
  · intro added functions h hadded hnames p
    rw [ownPackages, hadded.packages_eq, List.mem_flatMap]
    exact exists_congr fun c => and_congr_right fun hc => Host.mem_packagesOf (hnames c hc)
  · intro hfilled hproper front last hlast hp
    rcases front_of_hasPackage hfilled hp (splitLastDot_append front hlast) with
      hfront | ⟨f, hf, run, segment, hrun, -, hdot⟩
    · exact hfront
    · have hsegment := (hproper f hf).valid segment (hrun.subset (by simp))
      simp [hasDot, hsegment.2] at hdot
  · intro hfilled front last hlast hp
    exact front_of_hasPackage hfilled hp (splitLastDot_append front hlast)
  · intro batch f hfiles
    simp only [hasPackage_single hfiles]
    exact f.namespaceName.fronts_enclose_iff

def craneFile : SourceFile :=
  { namespaceName := ⟨["harbour", "crane"], by decide, by decide⟩
    imports := []
    members := []
    pos := none }

theorem link_nothing (n : Nat) : link n nothing = nothing := by
  induction n with
  | zero => rfl
  | succ n ih => exact ih

/-- Stands in a namespace that was made by a step down with a dotted text. -/
def gateFile : SourceFile :=
  { craneFile with namespaceName := QualifiedName.child ⟨["yard"], by decide, by decide⟩ "dock.gate" }

def yard : Chain := source (.ofFiles 0 [gateFile]) false nothing

/-- A dotted child stands for two packages at once, of which only the inner one is there. -/
theorem gate_without_dock :
    (∃ name, QualifiedName.parse "yard" = .ok name ∧ gateFile.namespaceName = name.child "dock.gate") ∧
      yard.HostsFilled ∧ hasDot "gate" = false ∧ yard.hasPackage ("yard.dock" ++ "." ++ "gate") = true ∧
      yard.hasPackage "yard.dock" = false := by
  refine ⟨⟨_, QualifiedName.parse_eq_ok_iff.mpr ⟨by decide, by decide, by decide⟩, rfl⟩, ?_, by decide,
    by decide, by decide⟩
  intro n h hlink
  cases n with
  | zero => cases hlink
  | succ n => cases (link_nothing n).symm.trans hlink

def winch : HostClass := .ofName "tools..hoist.Winch"

/-- A batch that asks on for packages, in front of a host with a class in a package without a name. -/
def harbour : Chain := source (.ofFiles 0 [craneFile]) true (host (Host.empty.addClass winch))

theorem hoist_enclosed : harbour.hasPackage "tools..hoist" = true ∧ harbour.hasPackage "tools." = true ∧
    harbour.hasPackage "tools" = true ∧ harbour.hasPackage "harbour" = true := by
  obtain ⟨hlinks, hbatch, hhost, hfront, -, -⟩ := harbour.packages_by_link
  have hadded : Host.FilledWith [winch] [] (Host.empty.addClass winch) := .addClass winch .empty
  have hfilled : harbour.HostsFilled := by
    intro n h hlink
    match n with
    | 0 => cases hlink
    | 1 =>
      cases hlink
      exact ⟨[winch], [], hadded⟩
    | n + 2 => cases (link_nothing n).symm.trans hlink
  have hproper : ∀ f, harbour.HasFile f → f.namespaceName.Proper := by
    rintro f ⟨n, batch, delegates, outer, hlink, hf⟩
    match n with
    | 0 =>
      cases hlink
      obtain rfl := List.mem_singleton.mp hf
      exact ⟨by decide, by decide⟩
    | 1 => cases hlink
    | n + 2 => cases (link_nothing n).symm.trans hlink
  have hoist : harbour.hasPackage "tools..hoist" = true := by
    refine (hlinks _).mpr ⟨1, (hhost [winch] [] _ hadded (by decide) _).mpr ?_, ?_⟩
    · exact ⟨winch, by simp, "tools..hoist", by decide, .inl rfl⟩
    · intro k hk
      obtain rfl : k = 0 := by omega
      exact ⟨_, _, rfl⟩
  have hinner := hfront hfilled hproper "tools." "hoist" (by decide) hoist
  refine ⟨hoist, hinner, hfront hfilled hproper "tools" "" (by decide) hinner, ?_⟩
  exact (hlinks _).mpr ⟨0, (hbatch _ _ _ _).mpr ⟨craneFile, List.mem_singleton.mpr rfl, ["harbour"],
    by decide, ⟨["crane"], rfl⟩, by decide⟩, by omega⟩

end Chain

end SemanticCheck
