import OpenedExtraction.PyText
import OpenedExtraction.Nesting

/-! The conditional regions of a source file: create_preprocessor_map and
contained_in_preprocessor, and how the line loop refines the stack scan of nested
groups. -/
namespace OpenedExtraction.PreprocessorMap
open OpenedExtraction.PyText OpenedExtraction.Nesting

/-- The directives under which regions are recorded. -/
inductive Directive where
  | ifdef | ifnz | ifndef
  deriving DecidableEq, Repr

def Directive.text : Directive → Str
  | .ifdef => "#ifdef ".toList
  | .ifnz => "#if ".toList
  | .ifndef => "#ifndef ".toList

def elifstring : Str := "#elif ".toList
def elsestring : Str := "#else ".toList
def endifstring : Str := "#endif ".toList

abbrev Guard := Directive × Str

/-- The tuple (t,name,start,end) of the region list. -/
abbrev Region := Span Guard

structure ScanState where
  stack : List (Guard × Nat)
  pres : List Region
  lc : Nat

/-- The three openers: the second token of the line is the name. -/
def pushName (d : Directive) (s : ScanState) (line : Str) : Except PyErr ScanState := do
  let name ← item (split line) 1
  .ok { s with stack := ((d, name), s.lc) :: s.stack }

def popRegion (s : ScanState) : Except PyErr (Guard × ScanState) :=
  match s.stack with
  | [] => .error .indexError
  | (g, bg) :: stack => .ok (g, { s with stack := stack, pres := s.pres ++ [⟨g, bg, s.lc - 1⟩] })

/-- The loop body: six independent tests of the start of the line. -/
def scanLine (s : ScanState) (line : Str) : Except PyErr ScanState := do
  let s ← if find Directive.ifdef.text line = some 0 then pushName .ifdef s line else .ok s
  let s ← if find Directive.ifnz.text line = some 0 then pushName .ifnz s line else .ok s
  let s ← if find Directive.ifndef.text line = some 0 then pushName .ifndef s line else .ok s
  let s ← if find elifstring line = some 0 then do
      let (_, s) ← popRegion s
      pushName .ifdef s line
    else .ok s
  let s ← if find elsestring line = some 0 then do
      let (g, s) ← popRegion s
      .ok { s with stack := ((.ifndef, g.2), s.lc) :: s.stack }
    else .ok s
  let s ← if find endifstring line = some 0 then do
      let (_, s) ← popRegion s
      .ok s
    else .ok s
  .ok { s with lc := s.lc + 1 }

/-- The regions of the lines of a file, in the order in which they are closed. -/
def createPreprocessorMap (lines : List Str) : Except PyErr (List Region) := do
  let s ← lines.foldlM scanLine ⟨[], [], 1⟩
  .ok s.pres

def createPreprocessorMapOf (fs : FS) (filename : Str) : Except PyErr (List Region) := do
  let lines ← openLines fs filename
  createPreprocessorMap lines

/-- The first region of the list that contains the range. -/
def containedInPreprocessor (pres : List Region) (stLine endLine : Int) : Option Region :=
  pres.find? (fun r => r.first ≤ stLine ∧ endLine ≤ r.last)

def nameOf (line : Str) : Str := (split line).getD 1 []

def roleOf (line : Str) : Role Guard :=
  if Directive.ifdef.text <+: line then .opener (.ifdef, nameOf line)
  else if Directive.ifnz.text <+: line then .opener (.ifnz, nameOf line)
  else if Directive.ifndef.text <+: line then .opener (.ifndef, nameOf line)
  else if elifstring <+: line then .switch (fun _ => (.ifdef, nameOf line))
  else if elsestring <+: line then .switch (fun g => (.ifndef, g.2))
  else if endifstring <+: line then .closer
  else .plain

def shapeOf (line : Str) : Shape := (roleOf line).shape

def readsName (line : Str) : Bool :=
  decide (Directive.ifdef.text <+: line ∨ Directive.ifnz.text <+: line ∨
    Directive.ifndef.text <+: line ∨ elifstring <+: line)

def Named (line : Str) : Prop := readsName line = true → 2 ≤ (split line).length

instance (line : Str) : Decidable (Named line) := inferInstanceAs (Decidable (_ → _))

/- No directive text is the start of another one, so at most one test succeeds. -/
def directiveTexts : List Str :=
  [Directive.ifdef.text, Directive.ifnz.text, Directive.ifndef.text, elifstring, elsestring,
   endifstring]

theorem directive_unique {p q line : Str} (hp : p ∈ directiveTexts) (hq : q ∈ directiveTexts)
    (h1 : p <+: line) (h2 : q <+: line) : p = q := by
  have hd : ∀ p ∈ directiveTexts, ∀ q ∈ directiveTexts, p <+: q → p = q := by decide
  cases Nat.le_total p.length q.length with
  | inl hl => exact hd p hp q hq (List.prefix_of_prefix_length_le h1 h2 hl)
  | inr hl => exact (hd q hq p hp (List.prefix_of_prefix_length_le h2 h1 hl)).symm

theorem other_not_prefix {p line : Str} (hp : p ∈ directiveTexts) (h : p <+: line) :
    ∀ q ∈ directiveTexts, q ≠ p → ¬ q <+: line :=
  fun _ hq hne h' => hne (directive_unique hq hp h' h)

theorem roleOf_opener {d : Directive} {line : Str} (h : d.text <+: line) :
    roleOf line = .opener (d, nameOf line) ∧ readsName line = true := by
  have hn := other_not_prefix (by cases d <;> decide) h
  cases d with
  | ifdef => simp [roleOf, readsName, h]
  | ifnz =>
    have h1 := hn Directive.ifdef.text (by decide) (by decide)
    simp [roleOf, readsName, h, h1]
  | ifndef =>
    have h1 := hn Directive.ifdef.text (by decide) (by decide)
    have h2 := hn Directive.ifnz.text (by decide) (by decide)
    simp [roleOf, readsName, h, h1, h2]

theorem not_opener {p line : Str} (hp : p ∈ [elifstring, elsestring, endifstring])
    (h : p <+: line) : ∀ d : Directive, ¬ d.text <+: line := by
  have hm : p ∈ directiveTexts := List.mem_of_mem_drop (show p ∈ directiveTexts.drop 3 from hp)
  have hd : ∀ p ∈ [elifstring, elsestring, endifstring], ∀ d : Directive, d.text ≠ p := by
    intro p hp d
    cases d <;> revert p <;> decide
  intro d
  exact other_not_prefix hm h d.text (by cases d <;> decide) (hd p hp d)

theorem roleOf_elif {line : Str} (h : elifstring <+: line) :
    roleOf line = .switch (fun _ => (.ifdef, nameOf line)) ∧ readsName line = true := by
  have ho := not_opener (by decide) h
  simp [roleOf, readsName, h, ho .ifdef, ho .ifnz, ho .ifndef]

theorem roleOf_else {line : Str} (h : elsestring <+: line) :
    roleOf line = .switch (fun g => (.ifndef, g.2)) ∧ readsName line = false := by
  have ho := not_opener (by decide) h
  have h1 := other_not_prefix (by decide) h elifstring (by decide) (by decide)
  simp [roleOf, readsName, h, ho .ifdef, ho .ifnz, ho .ifndef, h1]

theorem roleOf_endif {line : Str} (h : endifstring <+: line) :
    roleOf line = .closer ∧ readsName line = false := by
  have ho := not_opener (by decide) h
  have h1 := other_not_prefix (by decide) h elifstring (by decide) (by decide)
  have h2 := other_not_prefix (by decide) h elsestring (by decide) (by decide)
  simp [roleOf, readsName, h, ho .ifdef, ho .ifnz, ho .ifndef, h1, h2]

theorem roleOf_plain (line : Str) (h : ∀ p ∈ directiveTexts, ¬ p <+: line) :
    roleOf line = .plain ∧ readsName line = false := by
  have h1 := h Directive.ifdef.text (by decide)
  have h2 := h Directive.ifnz.text (by decide)
  have h3 := h Directive.ifndef.text (by decide)
  have h4 := h elifstring (by decide)
  have h5 := h elsestring (by decide)
  have h6 := h endifstring (by decide)
  simp [roleOf, readsName, h1, h2, h3, h4, h5, h6]

def stepRole (s : ScanState) : Role Guard → Except PyErr ScanState
  | .opener g => .ok { s with stack := (g, s.lc) :: s.stack, lc := s.lc + 1 }
  | .switch f => (popRegion s).map fun r =>
      { r.2 with stack := (f r.1, s.lc) :: r.2.stack, lc := s.lc + 1 }
  | .closer => (popRegion s).map fun r => { r.2 with lc := s.lc + 1 }
  | .plain => .ok { s with lc := s.lc + 1 }

theorem item_one (line : Str) (h : 2 ≤ (split line).length) :
    item (split line) 1 = .ok (nameOf line) := by
  have hg : (split line)[1]? = some (nameOf line) := by
    rw [nameOf, List.getD_eq_getElem?_getD, List.getElem?_eq_getElem (by omega)]
    rfl
  rw [item, hg]

theorem item_one_error (line : Str) (h : ¬ 2 ≤ (split line).length) :
    item (split line) 1 = .error .indexError := by
  rw [item, List.getElem?_eq_none (by omega)]

theorem pushName_eq (d : Directive) (s : ScanState) (line : Str) :
    pushName d s line = if 2 ≤ (split line).length
      then .ok { s with stack := ((d, nameOf line), s.lc) :: s.stack }
      else .error .indexError := by
  by_cases h : 2 ≤ (split line).length
  · rw [pushName, item_one line h, if_pos h]
    rfl
  · rw [pushName, item_one_error line h, if_neg h]
    rfl

theorem scanLine_eq (s : ScanState) (line : Str) :
    scanLine s line = if Named line then stepRole s (roleOf line) else .error .indexError := by
  by_cases hd : ∃ d : Directive, d.text <+: line
  · obtain ⟨d, h⟩ := hd
    have hr := roleOf_opener h
    have hn := other_not_prefix (by cases d <;> decide) h
    have h4 := hn elifstring (by decide) (by cases d <;> decide)
    have h5 := hn elsestring (by decide) (by cases d <;> decide)
    have h6 := hn endifstring (by decide) (by cases d <;> decide)
    have ht : ∀ d' : Directive, d'.text <+: line ↔ d' = d := by
      intro d'
      constructor
      · intro h'
        have he := directive_unique (by cases d' <;> decide) (by cases d <;> decide) h' h
        revert he
        cases d <;> cases d' <;> decide
      · intro he
        rw [he]
        exact h
    by_cases hl : 2 ≤ (split line).length <;> cases d <;>
      simp [scanLine, find_eq_zero, pushName_eq, Named, stepRole, hr, hl, ht, h4, h5, h6,
        bind, Except.bind]
  · have ho : ∀ d : Directive, ¬ d.text <+: line := fun d h => hd ⟨d, h⟩
    by_cases h4 : elifstring <+: line
    · have hr := roleOf_elif h4
      have h5 := other_not_prefix (by decide) h4 elsestring (by decide) (by decide)
      have h6 := other_not_prefix (by decide) h4 endifstring (by decide) (by decide)
      by_cases hl : 2 ≤ (split line).length <;> cases hs : s.stack <;>
        simp [scanLine, find_eq_zero, pushName_eq, popRegion, Named, stepRole, hr, hl, hs,
          ho .ifdef, ho .ifnz, ho .ifndef, h4, h5, h6, bind, Except.bind, Except.map]
    · by_cases h5 : elsestring <+: line
      · have hr := roleOf_else h5
        have h6 := other_not_prefix (by decide) h5 endifstring (by decide) (by decide)
        cases hs : s.stack <;>
          simp [scanLine, find_eq_zero, popRegion, Named, stepRole, hr, hs,
            ho .ifdef, ho .ifnz, ho .ifndef, h4, h5, h6, bind, Except.bind, Except.map]
      · by_cases h6 : endifstring <+: line
        · have hr := roleOf_endif h6
          cases hs : s.stack <;>
            simp [scanLine, find_eq_zero, popRegion, Named, stepRole, hr, hs,
              ho .ifdef, ho .ifnz, ho .ifndef, h4, h5, h6, bind, Except.bind, Except.map]
        · have hr := roleOf_plain line (by
            simp [directiveTexts, ho .ifdef, ho .ifnz, ho .ifndef, h4, h5, h6])
          simp [scanLine, find_eq_zero, Named, stepRole, hr,
            ho .ifdef, ho .ifnz, ho .ifndef, h4, h5, h6, bind, Except.bind]

/-- The loop over the lines is the stack scan of their roles. -/
theorem foldlM_scanLine (s : ScanState) (lines : List Str) (hn : ∀ l ∈ lines, Named l) :
    lines.foldlM scanLine s = match scan s.lc s.stack (lines.map roleOf) with
      | some r => .ok ⟨r.2, s.pres ++ r.1, s.lc + lines.length⟩
      | none => .error .indexError := by
  induction lines generalizing s with
  | nil => simp [scan, pure, Except.pure]
  | cons line lines ih =>
    have ht : ∀ l ∈ lines, Named l := fun l hl => hn l (List.mem_cons_of_mem line hl)
    have hl : s.lc + (line :: lines).length = s.lc + 1 + lines.length := by simp; omega
    rw [List.foldlM_cons, scanLine_eq, if_pos (hn line (by simp)), List.map_cons, hl]
    cases hr : roleOf line with
    | opener g => simpa [stepRole, scan, bind, Except.bind] using ih _ ht
    | plain => simpa [stepRole, scan, bind, Except.bind] using ih _ ht
    | switch f =>
      cases hs : s.stack with
      | nil => simp [stepRole, popRegion, hs, scan, bind, Except.bind, Except.map]
      | cons e st =>
        simp only [stepRole, popRegion, hs, Except.map, bind, Except.bind, scan, ih _ ht]
        cases scan (s.lc + 1) ((f e.1, s.lc) :: st) (lines.map roleOf) <;> simp
    | closer =>
      cases hs : s.stack with
      | nil => simp [stepRole, popRegion, hs, scan, bind, Except.bind, Except.map]
      | cons e st =>
        simp only [stepRole, popRegion, hs, Except.map, bind, Except.bind, scan, ih _ ht]
        cases scan (s.lc + 1) st (lines.map roleOf) <;> simp

theorem foldlM_scanLine_unnamed (s : ScanState) (lines : List Str)
    (hn : ¬ ∀ l ∈ lines, Named l) : lines.foldlM scanLine s = .error .indexError := by
  induction lines generalizing s with
  | nil => simp at hn
  | cons line lines ih =>
    rw [List.foldlM_cons, scanLine_eq]
    by_cases h : Named line
    · have ht : ¬ ∀ l ∈ lines, Named l := by
        intro ht
        apply hn
        intro l hl
        cases List.mem_cons.mp hl with
        | inl he => rw [he]; exact h
        | inr hm => exact ht l hm
      rw [if_pos h]
      cases hr : roleOf line with
      | opener g => exact ih _ ht
      | plain => exact ih _ ht
      | switch f =>
        cases hs : s.stack with
        | nil => simp [stepRole, popRegion, hs, bind, Except.bind, Except.map]
        | cons e st => simpa [stepRole, popRegion, hs, bind, Except.bind, Except.map] using ih _ ht
      | closer =>
        cases hs : s.stack with
        | nil => simp [stepRole, popRegion, hs, bind, Except.bind, Except.map]
        | cons e st => simpa [stepRole, popRegion, hs, bind, Except.bind, Except.map] using ih _ ht
    · rw [if_neg h]
      rfl

/-- The region list is the group list of the stack scan. -/
theorem createPreprocessorMap_ok_iff (lines : List Str) (pres : List Region) :
    createPreprocessorMap lines = .ok pres ↔ (∀ l ∈ lines, Named l) ∧
      ∃ st, scan 1 [] (lines.map roleOf) = some (pres, st) := by
  by_cases hn : ∀ l ∈ lines, Named l
  · rw [createPreprocessorMap, foldlM_scanLine _ lines hn]
    cases hs : scan 1 [] (lines.map roleOf) with
    | none => simp [bind, Except.bind]
    | some r => simpa [bind, Except.bind, Prod.ext_iff] using fun _ => hn
  · rw [createPreprocessorMap, foldlM_scanLine_unnamed _ lines hn]
    simp [hn, bind, Except.bind]

/-- A text on which the scanner does not raise: every name is there, and no switch or
closer comes while no conditional is open. -/
def Scannable (lines : List Str) : Prop :=
  (∀ l ∈ lines, Named l) ∧ (depth 0 (lines.map shapeOf)).isSome

theorem scannable_iff (lines : List Str) :
    Scannable lines ↔ ∃ pres, createPreprocessorMap lines = .ok pres := by
  have hd := scan_depth 1 ([] : List (Guard × Nat)) (lines.map roleOf)
  have hm : (lines.map roleOf).map Role.shape = lines.map shapeOf := by simp [shapeOf, Function.comp_def]
  rw [hm, List.length_nil] at hd
  simp only [createPreprocessorMap_ok_iff, Scannable, ← hd, Option.isSome_map]
  cases scan 1 [] (lines.map roleOf) with
  | none => simp
  | some r => simpa using fun _ => ⟨r.1, r.2, rfl⟩

theorem createPreprocessorMap_error (lines : List Str) (h : ¬ Scannable lines) :
    createPreprocessorMap lines = .error .indexError := by
  by_cases hn : ∀ l ∈ lines, Named l
  · cases hs : scan 1 [] (lines.map roleOf) with
    | none =>
      rw [createPreprocessorMap, foldlM_scanLine _ lines hn, hs]
      rfl
    | some r =>
      exact absurd ((scannable_iff lines).mpr ⟨r.1, (createPreprocessorMap_ok_iff lines r.1).mpr
        ⟨hn, r.2, hs⟩⟩) h
  · rw [createPreprocessorMap, foldlM_scanLine_unnamed _ lines hn]
    rfl

theorem regions_before {lines : List Str} {pres : List Region}
    (h : createPreprocessorMap lines = .ok pres) :
    pres.Pairwise Before ∧ ∀ r ∈ pres, r.first ≤ r.last := by
  obtain ⟨_, st, hs⟩ := (createPreprocessorMap_ok_iff lines pres).mp h
  exact scan_pairwise le_rfl ⟨List.Pairwise.nil, by simp⟩ hs

theorem nameOf_token {line : Str} (h : 2 ≤ (split line).length) : IsToken (nameOf line) := by
  apply mem_split line
  rw [nameOf, List.getD_eq_getElem?_getD, List.getElem?_eq_getElem (by omega)]
  exact List.getElem_mem _

/- The guards a line can record: a new name comes from the line, #else keeps the old one. -/
private theorem role_labels {line : Str} (hn : Named line) :
    (∀ g, roleOf line = .opener g → IsToken g.2) ∧
    ∀ f, roleOf line = .switch f → ∀ g : Guard, IsToken g.2 → IsToken (f g).2 := by
  by_cases hd : ∃ d : Directive, d.text <+: line
  · obtain ⟨d, h⟩ := hd
    have hr := roleOf_opener h
    have ht := nameOf_token (hn hr.2)
    simp [hr.1, ht]
  · by_cases h4 : elifstring <+: line
    · have hr := roleOf_elif h4
      have ht := nameOf_token (hn hr.2)
      simp [hr.1, ht]
    · have ho : ∀ d : Directive, ¬ d.text <+: line := fun d h => hd ⟨d, h⟩
      by_cases h5 : elsestring <+: line
      · simp [(roleOf_else h5).1]
      · by_cases h6 : endifstring <+: line
        · simp [(roleOf_endif h6).1]
        · have hr := roleOf_plain line (by
            simp [directiveTexts, ho .ifdef, ho .ifnz, ho .ifndef, h4, h5, h6])
          simp [hr.1]

theorem region_token {lines : List Str} {pres : List Region}
    (h : createPreprocessorMap lines = .ok pres) : ∀ r ∈ pres, IsToken r.label.2 := by
  obtain ⟨hn, st, hs⟩ := (createPreprocessorMap_ok_iff lines pres).mp h
  refine scan_labels (fun g : Guard => IsToken g.2) (by simp) ?_ ?_ hs
  · intro g hg
    obtain ⟨line, hl, he⟩ := List.mem_map.mp hg
    exact (role_labels (hn line hl)).1 g he
  · intro f hf
    obtain ⟨line, hl, he⟩ := List.mem_map.mp hf
    exact (role_labels (hn line hl)).2 f he

def Contains (r : Region) (s e : Int) : Prop := r.first ≤ s ∧ e ≤ r.last

instance (r : Region) (s e : Int) : Decidable (Contains r s e) :=
  inferInstanceAs (Decidable (_ ∧ _))

theorem contained_none_iff (pres : List Region) (s e : Int) :
    containedInPreprocessor pres s e = none ↔ ∀ r ∈ pres, ¬ Contains r s e := by
  simp [containedInPreprocessor, Contains]

theorem contained_innermost {lines : List Str} {pres : List Region} {s e : Int} {r₀ : Region}
    (h : createPreprocessorMap lines = .ok pres) (hse : s ≤ e)
    (hc : containedInPreprocessor pres s e = some r₀) :
    r₀ ∈ pres ∧ Contains r₀ s e ∧ ∀ r ∈ pres, Contains r s e →
      r = r₀ ∨ (r.first < r₀.first ∧ r₀.last < r.last) := by
  obtain ⟨hp, _⟩ := regions_before h
  obtain ⟨hr₀, before, rest, rfl, hb⟩ := List.find?_eq_some_iff_append.mp hc
  have hcon : Contains r₀ s e := by simpa [Contains] using hr₀
  refine ⟨by simp, hcon, ?_⟩
  intro r hr hrc
  have hnb : r ∉ before := by
    intro hm
    have hf := hb r hm
    simp only [Contains] at hrc
    simp [hrc] at hf
  have hmem : r = r₀ ∨ r ∈ rest := by simpa [hnb] using hr
  cases hmem with
  | inl heq => exact Or.inl heq
  | inr hrest =>
    -- r is listed after r₀, so it ends later; sharing the range, it starts earlier
    have hpair := (List.pairwise_append.mp hp).2.1
    obtain ⟨hlast, hfirst⟩ := (List.pairwise_cons.mp hpair).1 r hrest
    have h1 := hrc.1
    have h2 := hcon.2
    exact Or.inr ⟨hfirst.resolve_right (by omega), hlast⟩

end OpenedExtraction.PreprocessorMap
