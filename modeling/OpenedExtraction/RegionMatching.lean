import OpenedExtraction.CRegions

/-! The region list as a matching of lines: when the scanner raises, which pairs of lines it
records and in which order, and what the first hit of the lookup is. -/
namespace OpenedExtraction.RegionMatching
open OpenedExtraction.PyText OpenedExtraction.Nesting OpenedExtraction.PreprocessorMap
open OpenedExtraction.CRegions

/-- A switch or closer comes while no conditional is open. -/
def EndsNothing (lines : List Str) : Prop :=
  ∃ before line after, lines = before ++ line :: after ∧ (shapeOf line).ends = true ∧
    depth 0 (before.map shapeOf) = some 0

def LacksName (lines : List Str) : Prop :=
  ∃ line ∈ lines, readsName line = true ∧ (split line).length < 2

/-- Line i opens or switches, line j > i switches or closes, and the lines strictly between
them are balanced. Lines count from 1. -/
def Matched (lines : List Str) (i j : Nat) : Prop :=
  1 ≤ i ∧ i < j ∧ (∃ l ∈ lines[i - 1]?, (shapeOf l).starts = true) ∧
    (∃ l ∈ lines[j - 1]?, (shapeOf l).ends = true) ∧
    Balanced (((lines.take (j - 1)).drop i).map shapeOf)

theorem not_scannable_iff (lines : List Str) :
    ¬ Scannable lines ↔ EndsNothing lines ∨ LacksName lines := by
  have hnamed : (¬ ∀ l ∈ lines, Named l) ↔ LacksName lines := by
    simp [Named, LacksName]
  have hdepth : depth 0 (lines.map shapeOf) = none ↔ EndsNothing lines := by
    rw [depth_eq_none_iff]
    constructor
    · intro h
      obtain ⟨a, r, rest, hsplit, hr, ha⟩ := h
      obtain ⟨before, tail, rfl, rfl, htail⟩ := List.map_eq_append_iff.mp hsplit
      obtain ⟨line, after, rfl, rfl, rfl⟩ := List.map_eq_cons_iff.mp htail
      exact ⟨before, line, after, rfl, hr, ha⟩
    · intro h
      obtain ⟨before, line, after, rfl, hr, ha⟩ := h
      exact ⟨before.map shapeOf, shapeOf line, after.map shapeOf, by simp, hr, ha⟩
  rw [Scannable, not_and_or, hnamed, ← hdepth, Option.not_isSome_iff_eq_none, or_comm]

theorem matched_iff (lines : List Str) (i j : Nat) :
    Matched lines i (j + 1) ↔ IsGroup (lines.map shapeOf) i j := by
  constructor
  · intro h
    obtain ⟨hi, hij, ⟨l, hl, hs⟩, ⟨l', hl', he⟩, hb⟩ := h
    rw [Nat.add_sub_cancel] at hl' hb
    obtain ⟨hlt, rfl⟩ := List.getElem?_eq_some_iff.mp hl
    obtain ⟨hlt', rfl⟩ := List.getElem?_eq_some_iff.mp hl'
    have hfirst : lines = lines.take (i - 1) ++ lines[i - 1] :: lines.drop i := by
      have hd := List.drop_eq_getElem_cons hlt
      rw [Nat.sub_add_cancel hi] at hd
      rw [← hd, List.take_append_drop]
    have hmid : lines.drop i = (lines.take j).drop i ++ lines[j] :: lines.drop (j + 1) := by
      have hcut := List.take_append_drop (j - i) (lines.drop i)
      rw [List.drop_drop, Nat.add_sub_cancel' (by omega), ← List.drop_take,
        List.drop_eq_getElem_cons hlt'] at hcut
      exact hcut.symm
    refine ⟨(lines.take (i - 1)).map shapeOf, shapeOf lines[i - 1],
      ((lines.take j).drop i).map shapeOf, shapeOf lines[j], (lines.drop (j + 1)).map shapeOf,
      ?_, hs, hb, he, ?_, ?_⟩
    · rw [← List.map_cons, ← List.map_append, ← hmid, ← List.map_cons, ← List.map_append, ← hfirst]
    · simp only [List.length_map, List.length_take]
      omega
    · simp only [List.length_map, List.length_take, List.length_drop]
      omega
  · intro h
    obtain ⟨a, r, mid, r', rest, hsplit, hs, hb, he, hi, hj⟩ := h
    obtain ⟨before, tail, rfl, rfl, ht⟩ := List.map_eq_append_iff.mp hsplit
    obtain ⟨line, tail', rfl, rfl, ht'⟩ := List.map_eq_cons_iff.mp ht
    obtain ⟨body, tail'', rfl, rfl, ht''⟩ := List.map_eq_append_iff.mp ht'
    obtain ⟨line', after, rfl, rfl, rfl⟩ := List.map_eq_cons_iff.mp ht''
    rw [List.length_map] at hi hj
    rw [List.length_map] at hj
    have hcut : (before ++ line :: (body ++ line' :: after)).take j = before ++ line :: body := by
      rw [hj, List.take_append, List.take_of_length_le (by omega)]
      simp [show before.length + 1 + body.length - before.length = body.length + 1 by omega]
    refine ⟨by omega, by omega, ⟨line, ?_, hs⟩, ⟨line', ?_, he⟩, ?_⟩
    · simp [hi]
    · rw [Nat.add_sub_cancel, hj, List.getElem?_append_right (by omega)]
      simp [show before.length + 1 + body.length - before.length = body.length + 1 by omega]
    · rw [Nat.add_sub_cancel, hcut, hi]
      simpa using hb

theorem mem_regions_iff {lines : List Str} {pres : List Region}
    (h : createPreprocessorMap lines = .ok pres) (i j : Nat) :
    (i, j) ∈ pres.map Span.bounds ↔ Matched lines i (j + 1) := by
  rw [mem_bounds_iff h, matched_iff]

/-- Either some switch or closer ends nothing or a name is missing, and the scanner raises; or
it returns the matched pairs of lines, each once, by increasing end. -/
theorem regions_are_matched_lines (lines : List Str) :
    ((∃ e, createPreprocessorMap lines = .error e) ∧ (EndsNothing lines ∨ LacksName lines)) ∨
    (¬ (EndsNothing lines ∨ LacksName lines) ∧ ∃ pres, createPreprocessorMap lines = .ok pres ∧
      (∀ i j, (i, j - 1) ∈ pres.map Span.bounds ∧ 0 < j ↔ Matched lines i j) ∧
      (pres.map Span.bounds).Nodup ∧ pres.Pairwise fun r r' => r.last < r'.last) := by
  rw [← not_scannable_iff]
  by_cases hs : Scannable lines
  · obtain ⟨pres, h⟩ := (scannable_iff lines).mp hs
    refine Or.inr ⟨not_not_intro hs, pres, h, fun i j => ?_, bounds_nodup h, ?_⟩
    · cases j with
      | zero => simp [Matched]
      | succ j => simpa using mem_regions_iff h i j
    · exact (regions_before h).1.imp fun hb => hb.1
  · exact Or.inl ⟨⟨_, createPreprocessorMap_error lines hs⟩, hs⟩

def Apart (r r' : Region) : Prop := r.last < r'.first ∨ r'.last < r.first

def Inside (r r' : Region) : Prop := r'.first < r.first ∧ r.last < r'.last

/-- Two regions of a list are apart or the earlier one lies strictly inside the later one, so
that the first region that contains a range lies inside every other one that does. -/
theorem first_match_is_innermost {lines : List Str} {pres : List Region}
    (h : createPreprocessorMap lines = .ok pres) :
    pres.Pairwise (fun r r' => Apart r r' ∨ Inside r r') ∧
    ∀ s e : Int, s ≤ e →
      (containedInPreprocessor pres s e = none ↔ ∀ r ∈ pres, ¬ Contains r s e) ∧
      ∀ r₀, containedInPreprocessor pres s e = some r₀ →
        r₀ ∈ pres ∧ Contains r₀ s e ∧ ∀ r ∈ pres, r ≠ r₀ → Contains r s e → Inside r₀ r := by
  refine ⟨(regions_before h).1.imp ?_, fun s e hse => ⟨contained_none_iff pres s e, ?_⟩⟩
  · intro r r' hb
    obtain ⟨hlast, hfirst⟩ := hb
    cases hfirst with
    | inl hlt => exact Or.inr ⟨hlt, hlast⟩
    | inr hlt => exact Or.inl (Or.inl hlt)
  · intro r₀ hr₀
    obtain ⟨hmem, hcon, hin⟩ := contained_innermost h hse hr₀
    exact ⟨hmem, hcon, fun r hr hne hc => (hin r hr hc).resolve_left hne⟩

def nestedText : Str := "#ifdef A\n#ifndef B\nint f;\n#endif \nint g;\n#endif \n".toList

def nestedRegions : List Region :=
  [⟨(.ifndef, "B".toList), 2, 3⟩, ⟨(.ifdef, "A".toList), 1, 5⟩]

theorem first_match_is_innermost_nested :
    createPreprocessorMap (readlines nestedText) = .ok nestedRegions ∧
      containedInPreprocessor nestedRegions 3 3 = some ⟨(.ifndef, "B".toList), 2, 3⟩ ∧
      Contains ⟨(.ifdef, "A".toList), 1, 5⟩ 3 3 ∧
      ∀ r ∈ nestedRegions, r ≠ ⟨(.ifndef, "B".toList), 2, 3⟩ → Contains r 3 3 →
        Inside ⟨(.ifndef, "B".toList), 2, 3⟩ r := by
  have hscan : createPreprocessorMap (readlines nestedText) = .ok nestedRegions := by
    decide +kernel
  have hfirst : containedInPreprocessor nestedRegions 3 3 =
      some ⟨(.ifndef, "B".toList), 2, 3⟩ := by decide +kernel
  exact ⟨hscan, hfirst, by decide +kernel,
    (((first_match_is_innermost hscan).2 3 3 le_rfl).2 _ hfirst).2.2⟩

end OpenedExtraction.RegionMatching
