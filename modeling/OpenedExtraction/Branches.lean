import OpenedExtraction.CRegions
import OpenedExtraction.RegionGuards

/-! What is recorded for the branches of one conditional, from its opener over #elif and #else
to the #endif, and when exactly one of them is true. -/
namespace OpenedExtraction.Branches
open OpenedExtraction.PyText OpenedExtraction.Nesting OpenedExtraction.PreprocessorMap
open OpenedExtraction.CRegions OpenedExtraction.RegionGuards

/-- A complete chain as the scanner recognises it. A branch is its directive line and its body. -/
structure Chain where
  opener : Str
  body : List Str
  elifs : List (Str × List Str)
  els : Option (Str × List Str)
  closer : Str
  opens : ∃ d : Directive, d.text <+: opener
  elif_text : ∀ s ∈ elifs, elifstring <+: s.1
  else_text : ∀ s ∈ els, elsestring <+: s.1
  closes : endifstring <+: closer
  balanced : Balanced (body.map shapeOf)
  balanced_later : ∀ s ∈ elifs ++ els.toList, Balanced (s.2.map shapeOf)

def Chain.later (c : Chain) : List (Str × List Str) := c.elifs ++ c.els.toList

def Chain.lines (c : Chain) : List Str :=
  c.opener :: (c.body ++ c.later.flatMap (fun s => s.1 :: s.2)) ++ [c.closer]

/- First and last line of each branch, the first one starting on line n. -/
def boundsFrom (n : Nat) (body : List Str) : List (Str × List Str) → List (Nat × Nat)
  | [] => [(n, n + body.length)]
  | s :: later => (n, n + body.length) :: boundsFrom (n + body.length + 1) s.2 later

/-- The pairs (directive, name) that a region list has for the branches of a chain whose opener
is line n. -/
def recorded (pres : List Region) (n : Nat) (c : Chain) : List Guard :=
  (boundsFrom n c.body c.later).filterMap fun b =>
    (pres.find? fun r => r.bounds = b).map Span.label

def ExactlyOne (hasElse : Bool) (guards : List Guard) : Prop :=
  ∀ σ : Assignment, guards.countP (holds σ) ≤ 1 ∧
    (hasElse = true → guards.countP (holds σ) = 1)

/-- The chains whose recorded pairs exclude each other: a single branch, #ifdef with #else, and
#ifndef followed by #elif with the same name. -/
def Chain.Sound (c : Chain) : Prop :=
  (c.elifs = [] ∧ c.els = none) ∨
  (c.elifs = [] ∧ Directive.ifdef.text <+: c.opener) ∨
  (c.els = none ∧ Directive.ifndef.text <+: c.opener ∧
    ∃ s, c.elifs = [s] ∧ nameOf s.1 = nameOf c.opener)

def segment (s : Str × List Str) : (Guard → Guard) × List (Role Guard) :=
  (match roleOf s.1 with
    | .switch f => f
    | _ => id, s.2.map roleOf)

theorem shape_map_roleOf (lines : List Str) :
    (lines.map roleOf).map Role.shape = lines.map shapeOf := by
  rw [List.map_map]
  rfl

theorem segment_roles {s : Str × List Str} (h : (shapeOf s.1) = .switch) :
    .switch (segment s).1 :: (segment s).2 = (s.1 :: s.2).map roleOf := by
  cases hr : roleOf s.1 with
  | switch f => simp [segment, hr]
  | opener g => simp [shapeOf, hr, Role.shape] at h
  | closer => simp [shapeOf, hr, Role.shape] at h
  | plain => simp [shapeOf, hr, Role.shape] at h

theorem chainTail_roles (body : List Str) (later : List (Str × List Str)) (closer : Str)
    (hs : ∀ s ∈ later, shapeOf s.1 = .switch) (hc : roleOf closer = .closer) :
    chainTail (body.map roleOf) (later.map segment) =
      (body ++ later.flatMap (fun s => s.1 :: s.2) ++ [closer]).map roleOf := by
  induction later generalizing body with
  | nil => simp [chainTail, hc]
  | cons s later ih =>
    have hrest := ih s.2 fun x hx => hs x (by simp [hx])
    have hseg : (segment s).2 = s.2.map roleOf := rfl
    have hrole := segment_roles (hs s (by simp))
    rw [hseg, List.map_cons, List.cons.injEq] at hrole
    simp only [List.map_cons, chainTail, hseg, hrest, hrole.1]
    simp

def labels (g : Guard) : List (Str × List Str) → List Guard
  | [] => [g]
  | s :: later => g :: labels ((segment s).1 g) later

theorem branchSpans_eq (n : Nat) (g : Guard) (body : List Str) (later : List (Str × List Str)) :
    (branchSpans n g (body.map roleOf) (later.map segment)).map Span.bounds =
        boundsFrom n body later ∧
      (branchSpans n g (body.map roleOf) (later.map segment)).map Span.label = labels g later := by
  induction later generalizing n g body with
  | nil => simp [branchSpans, boundsFrom, labels, Span.bounds]
  | cons s later ih =>
    have hi := ih (n + body.length + 1) ((segment s).1 g) s.2
    have hseg : (segment s).2 = s.2.map roleOf := rfl
    simp only [List.map_cons, branchSpans, boundsFrom, labels, Span.bounds, List.length_map,
      hseg, hi.1, hi.2, and_self]

theorem find_labels {pres spans : List Region} (hnd : (pres.map Span.bounds).Nodup)
    (hin : ∀ g ∈ spans, g ∈ pres) :
    (spans.map Span.bounds).filterMap (fun b => (pres.find? fun r => r.bounds = b).map Span.label) =
      spans.map Span.label := by
  have hfind : ∀ g ∈ pres, pres.find? (fun r => r.bounds = g.bounds) = some g := by
    intro g hg
    obtain ⟨x, hx⟩ := Option.isSome_iff_exists.mp
      (List.find?_isSome (p := fun r : Region => decide (r.bounds = g.bounds)).mpr ⟨g, hg, by simp⟩)
    have hb : x.bounds = g.bounds := by simpa using List.find?_some hx
    rw [hx, List.inj_on_of_nodup_map hnd (List.mem_of_find?_eq_some hx) hg hb]
  induction spans with
  | nil => rfl
  | cons g spans ih =>
    rw [List.map_cons, List.filterMap_cons, hfind g (hin g (by simp)),
      ih fun x hx => hin x (by simp [hx])]
    rfl

theorem Chain.switches (c : Chain) : ∀ s ∈ c.later, shapeOf s.1 = .switch := by
  intro s hs
  cases List.mem_append.mp hs with
  | inl he => simp [shapeOf, roleOf_elif (c.elif_text s he), Role.shape]
  | inr he => simp [shapeOf, roleOf_else (c.else_text s (by simpa using he)), Role.shape]

/-- In every file with the chain in it the branches are recorded with these labels. -/
theorem recorded_eq (c : Chain) {before after : List Str} {pres : List Region} {d : Directive}
    (hd : d.text <+: c.opener)
    (h : createPreprocessorMap (before ++ (c.lines ++ after)) = .ok pres) :
    recorded pres (before.length + 1) c = labels (d, nameOf c.opener) c.later := by
  obtain ⟨_, st, hs⟩ := (createPreprocessorMap_ok_iff _ pres).mp h
  have htail := chainTail_roles c.body c.later c.closer c.switches (roleOf_endif c.closes).1
  have hroles : (before ++ (c.lines ++ after)).map roleOf = before.map roleOf ++
      .opener (d, nameOf c.opener) :: (chainTail (c.body.map roleOf) (c.later.map segment) ++
        after.map roleOf) := by
    rw [htail, ← (roleOf_opener hd).1]
    simp [Chain.lines]
  rw [hroles] at hs
  have hsegs : ∀ s ∈ c.later.map segment, Balanced (s.2.map Role.shape) := by
    intro s hm
    obtain ⟨x, hx, rfl⟩ := List.mem_map.mp hm
    have hb := c.balanced_later x hx
    rwa [← shape_map_roleOf] at hb
  have hin := scan_chain (by rw [shape_map_roleOf]; exact c.balanced) hsegs hs
  rw [List.length_map] at hin
  have hspans := branchSpans_eq (before.length + 1) (d, nameOf c.opener) c.body c.later
  rw [recorded, ← hspans.1, find_labels (bounds_nodup h) hin, hspans.2]

theorem labels_elifs (g : Guard) (elifs : List (Str × List Str)) (els : Option (Str × List Str))
    (he : ∀ s ∈ elifs, elifstring <+: s.1) (hl : ∀ s ∈ els, elsestring <+: s.1) :
    labels g (elifs ++ els.toList) = g :: (elifs.map fun s => (Directive.ifdef, nameOf s.1)) ++
      (els.map fun _ => (Directive.ifndef, ((elifs.map fun s => nameOf s.1).getLastD g.2))).toList := by
  induction elifs generalizing g with
  | nil =>
    cases els with
    | none => rfl
    | some s => simp [labels, segment, (roleOf_else (hl s rfl)).1]
  | cons s elifs ih =>
    have hseg : (segment s).1 g = (.ifdef, nameOf s.1) := by
      simp [segment, (roleOf_elif (he s (by simp))).1]
    rw [List.cons_append, labels, hseg, ih _ fun x hx => he x (by simp [hx])]
    simp only [List.map_cons, List.getLastD_cons, List.cons_append]

theorem not_exactlyOne (b : Bool) (pre : List Guard) (g : Guard) (mid : List Guard) (g' : Guard)
    (post : List Guard) (σ : Assignment) (hg : holds σ g = true) (hg' : holds σ g' = true) :
    ¬ ExactlyOne b (pre ++ g :: (mid ++ g' :: post)) := by
  intro h
  have hc := (h σ).1
  simp only [List.countP_append, List.countP_cons, hg, hg', if_true] at hc
  omega

def allBut (names : List Str) : Assignment := fun n => if n ∈ names then none else some 1

theorem exactlyOne_else_iff (d : Directive) (n : Str) :
    ExactlyOne true [(d, n), (.ifndef, n)] ↔ d = .ifdef := by
  constructor
  · intro h
    have h0 := (h fun _ => some 0).2 rfl
    have h1 := (h fun _ => none).2 rfl
    cases d with
    | ifdef => rfl
    | ifnz => simp [holds] at h0
    | ifndef => simp [List.countP_cons, holds] at h1
  · intro hd σ
    subst hd
    cases hv : σ n <;> simp [holds, hv]

theorem exactlyOne_elif_iff (d : Directive) (n m : Str) :
    ExactlyOne false [(d, n), (.ifdef, m)] ↔ d = .ifndef ∧ m = n := by
  constructor
  · intro h
    have h1 := (h fun _ => some 1).1
    have h2 := (h (allBut [n])).1
    cases d with
    | ifdef => simp [List.countP_cons, holds] at h1
    | ifnz => simp [List.countP_cons, holds] at h1
    | ifndef =>
      refine ⟨rfl, ?_⟩
      by_contra hne
      simp [holds, allBut, hne] at h2
  · intro hd σ
    obtain ⟨rfl, rfl⟩ := hd
    cases hv : σ m <;> simp [holds, hv]

theorem exactlyOne_labels_iff (d : Directive) (n : Str) (elifs : List (Str × List Str))
    (els : Option (Str × List Str)) (he : ∀ s ∈ elifs, elifstring <+: s.1)
    (hl : ∀ s ∈ els, elsestring <+: s.1) :
    ExactlyOne els.isSome (labels (d, n) (elifs ++ els.toList)) ↔
      (elifs = [] ∧ els = none) ∨ (elifs = [] ∧ d = .ifdef) ∨
      (els = none ∧ d = .ifndef ∧ ∃ s, elifs = [s] ∧ nameOf s.1 = n) := by
  rw [labels_elifs _ _ _ he hl]
  cases elifs with
  | nil => cases els with
    | none =>
      have hone : ExactlyOne false [(d, n)] := fun σ => ⟨List.countP_le_length, by simp⟩
      simpa using hone
    | some s => simpa using exactlyOne_else_iff d n
  | cons s elifs => cases elifs with
    | nil => cases els with
      | none => simpa using exactlyOne_elif_iff d n (nameOf s.1)
      | some e =>
        -- with #else there are three branches, and two of them are the same kind of test
        have hnot : ¬ ExactlyOne true [(d, n), (.ifdef, nameOf s.1), (.ifndef, nameOf s.1)] := by
          cases d with
          | ifdef =>
            exact not_exactlyOne true [] (.ifdef, n) [] (.ifdef, nameOf s.1) _ (fun _ => some 1)
              rfl rfl
          | ifnz =>
            exact not_exactlyOne true [] (.ifnz, n) [] (.ifdef, nameOf s.1) _ (fun _ => some 1)
              rfl rfl
          | ifndef =>
            exact not_exactlyOne true [] (.ifndef, n) [(.ifdef, nameOf s.1)] (.ifndef, nameOf s.1)
              [] (fun _ => none) rfl rfl
        simpa using hnot
    | cons s' elifs =>
      have hnot := not_exactlyOne els.isSome [(d, n)] (.ifdef, nameOf s.1) [] (.ifdef, nameOf s'.1)
        ((elifs.map fun s => (Directive.ifdef, nameOf s.1)) ++ (els.map fun _ =>
          (Directive.ifndef, (((s :: s' :: elifs).map fun s => nameOf s.1).getLastD n))).toList)
        (fun _ => some 1) rfl rfl
      simpa using hnot

theorem directive_iff {d d' : Directive} {line : Str} (h : d.text <+: line) :
    d'.text <+: line ↔ d = d' := by
  constructor
  · intro h'
    have he := directive_unique (by cases d <;> decide) (by cases d' <;> decide) h h'
    revert he
    cases d <;> cases d' <;> decide
  · intro he
    rw [← he]
    exact h

/-- For every complete chain of a file on which the scanner returns: the recorded pairs of its
branches exclude each other, and with an #else exactly one is true, if and only if the chain is
one of three kinds. -/
theorem branches_exclusive_iff (c : Chain) (before after : List Str) (pres : List Region)
    (h : createPreprocessorMap (before ++ (c.lines ++ after)) = .ok pres) :
    ExactlyOne c.els.isSome (recorded pres (before.length + 1) c) ↔ c.Sound := by
  obtain ⟨d, hd⟩ := c.opens
  rw [recorded_eq c hd h, Chain.later,
    exactlyOne_labels_iff d (nameOf c.opener) c.elifs c.els c.elif_text c.else_text,
    Chain.Sound, directive_iff hd, directive_iff hd]

def unlessChain : Chain where
  opener := "#ifndef A\n".toList
  body := ["int f;\n".toList]
  elifs := []
  els := some ("#else \n".toList, ["int g;\n".toList])
  closer := "#endif \n".toList
  opens := ⟨.ifndef, by decide⟩
  elif_text := by simp
  else_text := by
    intro s hs
    rw [← Option.some.inj hs]
    decide
  closes := by decide
  balanced := by decide
  balanced_later := by
    intro s hs
    simp only [List.nil_append, Option.toList_some, List.mem_singleton] at hs
    rw [hs]
    decide

def unlessRegions : List Region := [⟨(.ifndef, "A".toList), 1, 2⟩, ⟨(.ifndef, "A".toList), 3, 4⟩]

theorem branches_exclusive_iff_unless :
    createPreprocessorMap ([] ++ (unlessChain.lines ++ [])) = .ok unlessRegions ∧
      (ExactlyOne unlessChain.els.isSome (recorded unlessRegions 1 unlessChain) ↔
        unlessChain.Sound) :=
  ⟨by decide +kernel, branches_exclusive_iff unlessChain [] [] unlessRegions (by decide +kernel)⟩

/-- Both branches of #ifndef A with #else are recorded as #ifndef A. -/
theorem both_branches_true :
    createPreprocessorMap unlessChain.lines = .ok unlessRegions ∧
      recorded unlessRegions 1 unlessChain = [(.ifndef, "A".toList), (.ifndef, "A".toList)] ∧
      (recorded unlessRegions 1 unlessChain).countP (holds fun _ => none) = 2 ∧
      ¬ ExactlyOne unlessChain.els.isSome (recorded unlessRegions 1 unlessChain) := by
  have hrec : recorded unlessRegions 1 unlessChain =
      [(.ifndef, "A".toList), (.ifndef, "A".toList)] := by decide +kernel
  refine ⟨by decide +kernel, hrec, by rw [hrec]; decide +kernel, fun h => ?_⟩
  have hc := (h fun _ => none).1
  rw [hrec] at hc
  revert hc
  decide +kernel

end OpenedExtraction.Branches
