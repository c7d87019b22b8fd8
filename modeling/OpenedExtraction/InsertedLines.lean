import OpenedExtraction.ExtractAndDump
import OpenedExtraction.NestedGroups

/-! Lines that are inserted outside a range: scanner, lookup and copier number the lines in the
same way, so that the block of the range only changes its location comment. -/
namespace OpenedExtraction.InsertedLines
open OpenedExtraction.PyText OpenedExtraction.Nesting OpenedExtraction.PreprocessorMap
open OpenedExtraction.ExtractAndDump

def insertLines (lines B : List Str) (p : Nat) : List Str := lines.take p ++ (B ++ lines.drop p)

/-- A line number of the range after the insertion. -/
def renumber (B : List Str) (p : Nat) (startLine k : Int) : Int :=
  if p < startLine then k + B.length else k

def NoDirective (line : Str) : Prop := ∀ q ∈ directiveTexts, ¬ q <+: line

instance (line : Str) : Decidable (NoDirective line) :=
  inferInstanceAs (Decidable (∀ q ∈ directiveTexts, _))

theorem regions_insert {lines B : List Str} {pres : List Region} {p : Nat}
    (hp : p ≤ lines.length) (hB : ∀ l ∈ B, NoDirective l)
    (h : createPreprocessorMap lines = .ok pres) :
    ∃ before after, pres = before ++ after ∧
      createPreprocessorMap (insertLines lines B p) =
        .ok (before ++ after.map (Span.moved (p + 1) B.length)) ∧
      (∀ r ∈ before, r.last < p) ∧ ∀ r ∈ after, p ≤ r.last := by
  obtain ⟨hn, st, hs⟩ := (createPreprocessorMap_ok_iff lines pres).mp h
  have hplain : ∀ r ∈ B.map roleOf, r = .plain := by
    intro r hr
    obtain ⟨l, hl, rfl⟩ := List.mem_map.mp hr
    exact (roleOf_plain l (hB l hl)).1
  rw [← List.take_append_drop p lines, List.map_append] at hs
  obtain ⟨before, after, st', he, hscan, hb, ha⟩ := scan_insert hplain hs
  have hlen : ((lines.take p).map roleOf).length = p := by simp [hp]
  rw [hlen] at hscan hb ha
  rw [List.length_map] at hscan
  refine ⟨before, after, he, (createPreprocessorMap_ok_iff _ _).mpr ⟨?_, st', ?_⟩, hb, ha⟩
  · intro l hl
    rw [insertLines, List.mem_append, List.mem_append] at hl
    obtain hl | hl | hl := hl
    · exact hn l (List.mem_of_mem_take hl)
    · intro hr
      rw [(roleOf_plain l (hB l hl)).2] at hr
      cases hr
    · exact hn l (List.mem_of_mem_drop hl)
  · rw [insertLines, List.map_append, List.map_append]
    exact hscan

theorem contains_moved {r : Region} {B : List Str} {p : Nat} {s e : Int}
    (hp : p < s ∨ e ≤ p) (hr : p ≤ r.last) :
    Contains (r.moved (p + 1) B.length) (renumber B p s s) (renumber B p s e) ↔ Contains r s e := by
  simp only [Contains, Span.moved, renumber]
  by_cases hf : p + 1 ≤ r.first
  · rw [moved_of_le hf]
    by_cases hlt : (p : Int) < s
    · simp only [hlt, if_true]
      omega
    · simp only [hlt, if_false]
      omega
  · rw [moved_of_lt (by omega)]
    by_cases hlt : (p : Int) < s
    · simp only [hlt, if_true]
      omega
    · simp only [hlt, if_false]
      omega

theorem contains_before {r : Region} {B : List Str} {p : Nat} {s e : Int} (hse : s ≤ e)
    (hr : r.last < p) :
    Contains r (renumber B p s s) (renumber B p s e) ↔ Contains r s e := by
  simp only [Contains, renumber]
  by_cases hlt : (p : Int) < s
  · simp only [hlt, if_true]
    omega
  · simp only [hlt, if_false]

theorem containedInPreprocessor_eq (pres : List Region) (s e : Int) :
    containedInPreprocessor pres s e = pres.find? fun r => decide (Contains r s e) := rfl

theorem pickedGuard_insert {before after : List Region} {B : List Str} {p : Nat} {s e : Int}
    (hse : s ≤ e) (hp : p < s ∨ e ≤ p) (hb : ∀ r ∈ before, r.last < p)
    (ha : ∀ r ∈ after, p ≤ r.last) :
    pickedGuard (before ++ after.map (Span.moved (p + 1) B.length)) (renumber B p s s)
      (renumber B p s e) = pickedGuard (before ++ after) s e := by
  have hbefore : before.find? (fun r => decide (Contains r (renumber B p s s) (renumber B p s e))) =
      before.find? fun r => decide (Contains r s e) := by
    rw [← List.head?_filter, ← List.head?_filter]
    refine congrArg _ (List.filter_congr fun r hr => ?_)
    rw [decide_eq_decide]
    exact contains_before hse (hb r hr)
  have hafter : (after.map (Span.moved (p + 1) B.length)).find?
      (fun r => decide (Contains r (renumber B p s s) (renumber B p s e))) =
      (after.find? fun r => decide (Contains r s e)).map (Span.moved (p + 1) B.length) := by
    rw [List.find?_map, ← List.head?_filter, ← List.head?_filter]
    refine congrArg _ (congrArg _ (List.filter_congr fun r hr => ?_))
    rw [Function.comp_apply, decide_eq_decide]
    exact contains_moved hp (ha r hr)
  simp only [pickedGuard, containedInPreprocessor_eq, List.find?_append, hbefore, hafter]
  cases before.find? fun r => decide (Contains r s e) with
  | some r => rfl
  | none => cases after.find? fun r => decide (Contains r s e) <;> rfl

theorem sourceLines_insert {lines B : List Str} {p : Nat} {s e : Int} (hs : 1 ≤ s) (hse : s ≤ e)
    (hpl : p ≤ lines.length) (hp : p < s ∨ e ≤ p) :
    sourceLines (insertLines lines B p) (renumber B p s s) (renumber B p s e) =
      sourceLines lines s e := by
  have hlen : (lines.take p).length = p := by simp [hpl]
  by_cases hlt : (p : Int) < s
  · have hskip : (s + B.length - 1).toNat = p + (B.length + ((s - 1).toNat - p)) := by omega
    have hcount : (e + B.length + 1 - max 1 (s + B.length)).toNat = (e + 1 - max 1 s).toNat := by
      omega
    have hdrop : p + ((s - 1).toNat - p) = (s - 1).toNat := by omega
    simp only [sourceLines, insertLines, renumber, hlt, if_true, hskip, hcount]
    rw [← List.drop_drop, List.drop_left' hlen, ← List.drop_drop, List.drop_left, List.drop_drop,
      hdrop]
  · have hcut : (s - 1).toNat + (e + 1 - max 1 s).toNat ≤ p := by omega
    simp only [sourceLines, insertLines, renumber, hlt, if_false]
    rw [List.take_drop, List.take_append_of_le_length (by omega), List.take_take,
      Nat.min_eq_left hcut, ← List.take_drop]

/-- For every file on which the scanner returns, every range in it and every block of lines
without directives that is inserted outside the range: the scanner returns on the edited file,
and the two blocks have the same guard, the same lines and the same closing. -/
theorem insertion_outside_range (fs fs' : FS) (iFile t t' : Str) (B : List Str) (p : Nat)
    (s e : Int) (pres : List Region) (hfile : fs iFile = .text t) (hfile' : fs' iFile = .text t')
    (hpres : createPreprocessorMap (readlines (universalNewlines t)) = .ok pres)
    (hs : 1 ≤ s) (hse : s ≤ e) (hB : ∀ l ∈ B, NoDirective l)
    (hpl : p ≤ (readlines (universalNewlines t)).length)
    (hp : p < s ∨ e ≤ p)
    (hedit : readlines (universalNewlines t') = insertLines (readlines (universalNewlines t)) B p) :
    (∃ pres', createPreprocessorMap (readlines (universalNewlines t')) = .ok pres') ∧
    ∀ (d : PresDict fs) (d' : PresDict fs'), iFile ∈ d.dict.keys → iFile ∈ d'.dict.keys →
      ∃ val : Option Guard,
        extractAndDump fs d iFile s e =
          .ok ((val.map guardLine).getD [] ++ locationComment iFile s e ++
            (sourceLines (readlines (universalNewlines t)) s e).flatten ++
            (val.map fun _ => endGuard).getD []) ∧
        extractAndDump fs' d' iFile (renumber B p s s) (renumber B p s e) =
          .ok ((val.map guardLine).getD [] ++
            locationComment iFile (renumber B p s s) (renumber B p s e) ++
            (sourceLines (readlines (universalNewlines t)) s e).flatten ++
            (val.map fun _ => endGuard).getD []) := by
  obtain ⟨before, after, hsplit, hpres', hb, ha⟩ := regions_insert hpl hB hpres
  rw [← hedit] at hpres'
  refine ⟨⟨_, hpres'⟩, fun d d' hd hd' => ?_⟩
  have hl : d.lookup iFile = before ++ after := by
    rw [d.lookup_of_text hd hfile hpres, hsplit]
  have hl' := d'.lookup_of_text hd' hfile' hpres'
  have hguard := pickedGuard_insert hse hp hb ha (B := B)
  have hcopy := sourceLines_insert hs hse hpl hp (B := B)
  refine ⟨_, extractAndDump_text d s e hfile, ?_⟩
  rw [extractAndDump_text d' _ _ hfile', hl', hguard, ← hl, hedit, blockText, hcopy]

def beforeText : Str := "int a;\n#ifdef A\nint f;\n#endif \n".toList

def afterText : Str := "int a;\nint b;\n\n#ifdef A\nint f;\n#endif \n".toList

def beforeFiles : FS := filesOf [("a.c".toList, beforeText)]

def afterFiles : FS := filesOf [("a.c".toList, afterText)]

theorem insertion_outside_range_before :
    (∃ pres', createPreprocessorMap (readlines (universalNewlines afterText)) = .ok pres') ∧
    ∀ (d : PresDict beforeFiles) (d' : PresDict afterFiles), "a.c".toList ∈ d.dict.keys →
      "a.c".toList ∈ d'.dict.keys → ∃ val : Option Guard,
        extractAndDump beforeFiles d "a.c".toList 3 3 =
          .ok ((val.map guardLine).getD [] ++ locationComment "a.c".toList 3 3 ++
            "int f;\n".toList ++ (val.map fun _ => endGuard).getD []) ∧
        extractAndDump afterFiles d' "a.c".toList 5 5 =
          .ok ((val.map guardLine).getD [] ++ locationComment "a.c".toList 5 5 ++
            "int f;\n".toList ++ (val.map fun _ => endGuard).getD []) :=
  insertion_outside_range beforeFiles afterFiles "a.c".toList beforeText afterText
    ["int b;\n".toList, "\n".toList] 1 3 3 [⟨(.ifdef, "A".toList), 2, 3⟩] rfl rfl
    (by decide +kernel) (by decide) (by decide) (by decide +kernel) (by decide +kernel) (by decide)
    (by decide +kernel)

end OpenedExtraction.InsertedLines
