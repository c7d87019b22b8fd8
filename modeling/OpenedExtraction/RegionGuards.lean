import OpenedExtraction.ExtractAndDump

/-! What the guard around an extracted block keeps of the conditionals around the source
lines, for every assignment of macros. -/
namespace OpenedExtraction.RegionGuards
open OpenedExtraction.PyText OpenedExtraction.Nesting OpenedExtraction.PreprocessorMap
open OpenedExtraction.ExtractAndDump

/-- Which macros are defined, and with which value. -/
abbrev Assignment := Str → Option Int

def holds (σ : Assignment) (g : Guard) : Bool :=
  match g.1, σ g.2 with
  | .ifdef, v => v.isSome
  | .ifndef, v => v.isNone
  | .ifnz, some v => v ≠ 0
  | .ifnz, none => false

def openingGuard (text : Str) : Option Guard :=
  match readlines text with
  | [] => none
  | line :: _ =>
    match split line with
    | word :: name :: _ =>
      if word = "#ifdef".toList then some (.ifdef, name)
      else if word = "#if".toList then some (.ifnz, name)
      else if word = "#ifndef".toList then some (.ifndef, name)
      else none
    | _ => none

/-- The block is kept: its opening directive is true, or it has none. -/
def kept (σ : Assignment) (text : Str) : Bool :=
  match openingGuard text with
  | none => true
  | some g => holds σ g

theorem openingGuard_guardLine {g : Guard} (h : IsToken g.2) (rest : Str) :
    openingGuard (guardLine g ++ rest) = some g := by
  obtain ⟨d, n⟩ := g
  rw [openingGuard, readlines_line_append _ _ (guardLine_isLine h)]
  simp only [split_guardLine h]
  cases d <;> rfl

theorem openingGuard_comment (iFile : Str) (s e : Int) (rest : Str) :
    openingGuard (locationComment iFile s e ++ rest) = none := by
  have hl : IsLine "/* Extracted from \n".toList :=
    ⟨"/* Extracted from ".toList, rfl, by decide⟩
  have hs : split "/* Extracted from \n".toList =
      ["/*".toList, "Extracted".toList, "from".toList] := by decide +kernel
  have hh : ∃ tail, locationComment iFile s e ++ rest = "/* Extracted from \n".toList ++ tail :=
    ⟨_, List.append_assoc "/* Extracted from \n".toList _ _⟩
  obtain ⟨tail, ht⟩ := hh
  rw [ht, openingGuard, readlines_line_append _ tail hl]
  simp only [hs]
  rfl

theorem openingGuard_blockText (val : Option Guard) (iFile : Str) (s e : Int) (lines : List Str)
    (h : ∀ g ∈ val, IsToken g.2) : openingGuard (blockText val iFile s e lines) = val := by
  cases val with
  | none => simpa [blockText] using openingGuard_comment iFile s e _
  | some g => simpa [blockText] using openingGuard_guardLine (h g rfl) _

def Entails (g₀ g : Guard) : Prop :=
  g.2 = g₀.2 ∧ (g.1 = g₀.1 ∨ (g₀.1 = .ifnz ∧ g.1 = .ifdef))

theorem entails_iff (g₀ g : Guard) :
    (∀ σ, holds σ g₀ = true → holds σ g = true) ↔ Entails g₀ g := by
  obtain ⟨d₀, n₀⟩ := g₀
  obtain ⟨d, n⟩ := g
  constructor
  · intro h
    -- one assignment for each value of n₀ and of the other names is enough
    have test : ∀ v w : Option Int, holds (fun m => if m = n₀ then v else w) (d₀, n₀) = true →
        holds (fun m => if m = n₀ then v else w) (d, n) = true := fun v w => h _
    by_cases hn : n = n₀
    · subst hn
      have h1 := test none none
      have h2 := test (some 0) none
      have h3 := test (some 1) none
      revert h1 h2 h3
      cases d₀ <;> cases d <;> simp [holds, Entails]
    · have h1 := test none none
      have h2 := test none (some 0)
      have h3 := test (some 1) none
      have h4 := test (some 1) (some 0)
      revert h1 h2 h3 h4
      cases d₀ <;> cases d <;> simp [holds, hn]
  · intro h σ
    obtain ⟨hn, hd⟩ := h
    simp only at hn hd
    subst hn
    cases hd with
    | inl he => rw [he]; exact id
    | inr he =>
      obtain ⟨rfl, rfl⟩ := he
      cases hv : σ n <;> simp [holds, hv]

/-- The smallest region around the range carries every other region around it. -/
def InnermostEntails (pres : List Region) (s e : Int) : Prop :=
  ∀ r₀ ∈ pres, Contains r₀ s e →
    (∀ r ∈ pres, Contains r s e → r.first ≤ r₀.first ∧ r₀.last ≤ r.last) →
    ∀ r ∈ pres, Contains r s e → Entails r₀.label r.label

/-- The emitted guard stands for all conditionals around the range exactly when the
innermost one entails the others. -/
theorem picked_guard_exact_iff {lines : List Str} {pres : List Region} {s e : Int}
    (h : createPreprocessorMap lines = .ok pres) (hse : s ≤ e) :
    (∀ σ, (∀ g ∈ pickedGuard pres s e, holds σ g = true) ↔
      ∀ r ∈ pres, Contains r s e → holds σ r.label = true) ↔ InnermostEntails pres s e := by
  cases hc : containedInPreprocessor pres s e with
  | none =>
    have hn := (contained_none_iff pres s e).mp hc
    refine ⟨fun _ r₀ hr₀ hc₀ => absurd hc₀ (hn r₀ hr₀), fun _ σ => ?_⟩
    simpa [pickedGuard, hc] using fun r hr hrc => absurd hrc (hn r hr)
  | some r₀ =>
    obtain ⟨hmem, hcon, hin⟩ := contained_innermost h hse hc
    have hp : pickedGuard pres s e = some r₀.label := by simp [pickedGuard, hc]
    have hmin : ∀ r ∈ pres, Contains r s e → r.first ≤ r₀.first ∧ r₀.last ≤ r.last := by
      intro r hr hrc
      cases hin r hr hrc with
      | inl heq => rw [heq]; exact ⟨le_rfl, le_rfl⟩
      | inr hlt => exact ⟨hlt.1.le, hlt.2.le⟩
    simp only [hp, Option.mem_def, Option.some.injEq, forall_eq']
    constructor
    · intro hk r₁ hr₁ hc₁ hmin₁
      -- the smallest region is the one that the lookup finds
      have heq : r₁ = r₀ := by
        cases hin r₁ hr₁ hc₁ with
        | inl heq => exact heq
        | inr hlt =>
          have := hmin₁ r₀ hmem hcon
          omega
      intro r hr hrc
      rw [heq, ← entails_iff]
      exact fun σ hσ => (hk σ).mp hσ r hr hrc
    · intro hi σ
      refine ⟨fun hσ r hr hrc => ?_, fun ha => ha r₀ hmem hcon⟩
      exact (entails_iff r₀.label r.label).mpr (hi r₀ hmem hcon hmin r hr hrc) σ hσ

/-- For every file whose regions the scanner returned and every range inside it: the
extracted block is kept under the same assignments as the source range exactly when the
innermost conditional around the range entails every other one. -/
theorem nested_guards_kept_iff (fs : FS) (presDict : PresDict fs) (iFile t : Str)
    (pres : List Region) (s e : Int) (hfile : fs iFile = .text t)
    (hpres : createPreprocessorMap (readlines (universalNewlines t)) = .ok pres)
    (hmem : iFile ∈ presDict.dict.keys)
    (hse : s ≤ e) :
    ∃ block, extractAndDump fs presDict iFile s e = .ok block ∧
      ((∀ σ, kept σ block = true ↔
          ∀ r ∈ pres, Contains r s e → holds σ r.label = true) ↔
        InnermostEntails pres s e) := by
  refine ⟨_, extractAndDump_text presDict s e hfile, ?_⟩
  rw [presDict.lookup_of_text hmem hfile hpres, ← picked_guard_exact_iff hpres hse]
  have htok : ∀ g ∈ pickedGuard pres s e, IsToken g.2 := by
    intro g hg
    obtain ⟨r, hr, rfl⟩ := Option.map_eq_some_iff.mp hg
    exact region_token hpres r (List.mem_of_find?_eq_some hr)
  have hk : ∀ σ, kept σ (blockText (pickedGuard pres s e) iFile s e
      (readlines (universalNewlines t))) = true ↔
        ∀ g ∈ pickedGuard pres s e, holds σ g = true := by
    intro σ
    rw [kept, openingGuard_blockText _ _ _ _ _ htok]
    cases pickedGuard pres s e <;> simp
  simp only [hk]

def nestedText : Str := "#ifdef A\n#if B\nint f;\n#endif \n#endif \n".toList

def nestedRegions : List Region :=
  [⟨(.ifnz, "B".toList), 2, 3⟩, ⟨(.ifdef, "A".toList), 1, 4⟩]

def nestedFile : FS := filesOf [("a.c".toList, nestedText)]

def nestedDict : PresDict nestedFile :=
  (PresDict.empty nestedFile).add "a.c".toList nestedRegions (by decide +kernel)

theorem nested_guards_kept_iff_nestedFile :
    ∃ block, extractAndDump nestedFile nestedDict "a.c".toList 3 3 = .ok block ∧
      ((∀ σ, kept σ block = true ↔
          ∀ r ∈ nestedRegions, Contains r 3 3 → holds σ r.label = true) ↔
        InnermostEntails nestedRegions 3 3) :=
  nested_guards_kept_iff nestedFile nestedDict "a.c".toList nestedText nestedRegions 3 3
    rfl (by decide +kernel) (by decide +kernel) le_rfl

/-- With B set and A undefined the extracted block is kept, although its source lies in
a region whose directive #ifdef A is false. -/
theorem outer_guard_lost :
    ∃ (block : Str) (σ : Assignment),
      createPreprocessorMap (readlines (universalNewlines nestedText)) = .ok nestedRegions ∧
      extractAndDump nestedFile nestedDict "a.c".toList 3 3 = .ok block ∧
      kept σ block = true ∧
      ¬ ∀ r ∈ nestedRegions, Contains r 3 3 → holds σ r.label = true := by
  refine ⟨blockText (some (.ifnz, "B".toList)) "a.c".toList 3 3
    (readlines (universalNewlines nestedText)),
    fun n => if n = "B".toList then some 1 else none, ?_, ?_, ?_, ?_⟩
  · decide +kernel
  · decide +kernel
  · decide +kernel
  · intro h
    have hA := h ⟨(.ifdef, "A".toList), 1, 4⟩ (by simp [nestedRegions]) (by decide)
    revert hA
    decide

end OpenedExtraction.RegionGuards
