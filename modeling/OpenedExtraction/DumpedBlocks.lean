import OpenedExtraction.Extraction
import OpenedExtraction.RegionMatching

/-! What dumpFns writes: one block for each resolved function, with the lines of its range by
their numbers and the guard of the innermost region around them. -/
namespace OpenedExtraction.DumpedBlocks
open OpenedExtraction.PyText OpenedExtraction.PreprocessorMap OpenedExtraction.ExtractAndDump
open OpenedExtraction.CallGraph OpenedExtraction.FunctionTable OpenedExtraction.RegionMatching

def numberedLines (lines : List Str) (startLine endLine : Int) : List Str :=
  ((lines.zipIdx 1).filter fun p => decide (startLine ≤ p.2 ∧ p.2 ≤ endLine)).map Prod.fst

theorem filter_zipIdx (lines : List Str) (k : Nat) (a b : Int) :
    ((lines.zipIdx k).filter fun p => decide (a ≤ p.2 ∧ p.2 ≤ b)).map Prod.fst =
      (lines.drop (a - k).toNat).take (b + 1 - max (k : Int) a).toNat := by
  induction lines generalizing k with
  | nil => simp
  | cons l lines ih =>
    have hi := ih (k + 1)
    rw [List.zipIdx_cons]
    by_cases ha : a ≤ k
    · have hdrop : (a - k).toNat = 0 := by omega
      have hdrop' : (a - (k + 1 : Nat)).toNat = 0 := by omega
      rw [hdrop', List.drop_zero] at hi
      rw [hdrop, List.drop_zero]
      by_cases hb : (k : Int) ≤ b
      · have htake : (b + 1 - max (k : Int) a).toNat =
            (b + 1 - max ((k + 1 : Nat) : Int) a).toNat + 1 := by omega
        rw [htake, List.take_succ_cons, ← hi]
        simp [ha, hb]
      · have htake : (b + 1 - max (k : Int) a).toNat = 0 := by omega
        have htake' : (b + 1 - max ((k + 1 : Nat) : Int) a).toNat = 0 := by omega
        rw [htake', List.take_zero] at hi
        rw [htake, List.take_zero, List.filter_cons_of_neg (by simp [hb])]
        exact hi
    · have hdrop : (a - k).toNat = (a - (k + 1 : Nat)).toNat + 1 := by omega
      have htake : (b + 1 - max (k : Int) a).toNat =
          (b + 1 - max ((k + 1 : Nat) : Int) a).toNat := by omega
      rw [hdrop, htake, List.drop_succ_cons, ← hi, List.filter_cons_of_neg (by simp [ha])]

/-- The two counting loops copy the lines with the numbers of the range. -/
theorem sourceLines_eq (lines : List Str) (startLine endLine : Int) :
    sourceLines lines startLine endLine = numberedLines lines startLine endLine :=
  (filter_zipIdx lines 1 startLine endLine).symm

/-- The region contains the range; of the others that do none lies inside it, and for a range
that is not empty it lies inside all of them. -/
def Innermost (pres : List Region) (s e : Int) (r₀ : Region) : Prop :=
  r₀ ∈ pres ∧ Contains r₀ s e ∧ ∀ r ∈ pres, r ≠ r₀ → Contains r s e →
    ¬ Inside r r₀ ∧ (s ≤ e → Inside r₀ r)

/-- The guard of the innermost region around a range, if any region contains it. -/
def GuardOf (pres : List Region) (s e : Int) : Option Guard → Prop
  | none => ∀ r ∈ pres, ¬ Contains r s e
  | some g => ∃ r₀, Innermost pres s e r₀ ∧ r₀.label = g

/-- Opening directive, location comment, source lines, and a closing if there is an opening. -/
def Block (fs : FS) (d : Defn) (block : Str) : Prop :=
  ∃ t pres guard, fs d.srcFile = .text t ∧
    createPreprocessorMap (readlines (universalNewlines t)) = .ok pres ∧
    GuardOf pres d.startLine d.endLine guard ∧
    block = (guard.map guardLine).getD [] ++
      locationComment d.srcFile d.startLine d.endLine ++
      (numberedLines (readlines (universalNewlines t)) d.startLine d.endLine).flatten ++
      (guard.map fun _ => endGuard).getD []

theorem contained_guardOf {lines : List Str} {pres : List Region}
    (h : createPreprocessorMap lines = .ok pres) (s e : Int) :
    GuardOf pres s e (pickedGuard pres s e) := by
  rw [pickedGuard]
  cases hc : containedInPreprocessor pres s e with
  | none => exact (contained_none_iff pres s e).mp hc
  | some r₀ =>
    obtain ⟨hr₀, before, rest, hsplit, hb⟩ := List.find?_eq_some_iff_append.mp hc
    have hcon : Contains r₀ s e := by simpa [Contains] using hr₀
    refine ⟨r₀, ⟨by simp [hsplit], hcon, fun r hr hne hrc => ⟨fun hin => ?_, fun hse => ?_⟩⟩, rfl⟩
    · -- a region inside r₀ ends earlier, so it is listed before the first hit
      have hp := (regions_before h).1
      rw [hsplit, List.pairwise_append, List.pairwise_cons] at hp
      rw [hsplit] at hr
      have hm : r ∈ before ∨ r ∈ rest := by simpa [hne] using hr
      cases hm with
      | inl hm =>
        have hf := hb r hm
        rw [Contains] at hrc
        simp [hrc] at hf
      | inr hm =>
        have hlast := (hp.2.1.1 r hm).1
        exact absurd hin.2 (by omega)
    · exact ((contained_innermost h hse hc).2.2 r hr hrc).resolve_left hne

theorem definitionBlock_block {fs : FS} (presDict : PresDict fs) {d : Defn}
    (h : d.srcFile ∈ presDict.dict.keys) : Block fs d (definitionBlock presDict d) := by
  obtain ⟨t, ht, hl⟩ := presDict.text_of_mem h
  refine ⟨t, _, _, ht, hl, contained_guardOf hl d.startLine d.endLine, ?_⟩
  rw [← sourceLines_eq]
  simp only [definitionBlock, ht, blockText]

/-- After any call graph and function table, dumpFns writes for the resolved keys outside
headers, in key order, one block and one line of the function list each. -/
theorem dump_copies_requested_lines (fs : FS) (lines : List Str) (g : GraphState)
    (table : FuncTable) (presDict : PresDict fs) (defineFiles : Finset Str) (st : BuildState fs)
    (hparse : parseFunctionCallGraph fs lines .empty = .ok g)
    (hbuild : buildFnListToExtract table ⟨g.fns, presDict, defineFiles⟩ = .ok st) :
    ∃ out block, dumpFns fs st.presDict st.fns = .ok out ∧
      dumpText out = ((written st.fns).map block).flatten ∧
      dumpList out = ((written st.fns).map entryLine).flatten ∧
      ∀ d ∈ written st.fns, Block fs d (block d) := by
  have hu := parse_unresolved hparse
  rw [build_eq] at hbuild
  have hscanned := written_scanned hbuild hu
  refine ⟨_, definitionBlock st.presDict, dumpFns_scanned _ _ hscanned, ?_, ?_, ?_⟩
  · rw [dumpText, List.map_map]
    rfl
  · rw [dumpList, List.map_map]
    rfl
  · intro d hd
    exact definitionBlock_block st.presDict (hscanned d hd)

/-- f stands in a region, the range of g runs past the end of the file, u is not resolved. -/
def guardedFiles : FS :=
  filesOf [("a.c".toList, "#ifdef A\nint f;\n#endif \nint g;".toList)]

def guardedGraph : List Str := readlines "\x7b\nf,1,a.c,2\nu,1,b.h,1\ng,1,a.c,4\n\x7d\n".toList

def guardedState : GraphState :=
  { GraphState.empty with
    fns := ⟨[("f:a.c".toList, none), ("u:b.h".toList, none), ("g:a.c".toList, none)], by decide⟩ }

def guardedTable : FuncTable :=
  ⟨[("g".toList, [⟨"a.c".toList, 4, 9⟩]), ("f".toList, [⟨"a.c".toList, 2, 2⟩])], by decide⟩

def guardedDict : PresDict guardedFiles :=
  (PresDict.empty guardedFiles).add "a.c".toList [⟨(.ifdef, "A".toList), 1, 2⟩] (by decide +kernel)

def guardedBuilt : BuildState guardedFiles :=
  ⟨⟨[("f:a.c".toList, some ⟨"f".toList, "a.c".toList, 2, 2⟩), ("u:b.h".toList, none),
      ("g:a.c".toList, some ⟨"g".toList, "a.c".toList, 4, 9⟩)], by decide⟩, guardedDict,
    {"a.c".toList}⟩

theorem dump_copies_requested_lines_guarded :
    ∃ out block, dumpFns guardedFiles guardedBuilt.presDict guardedBuilt.fns = .ok out ∧
      dumpText out = ((written guardedBuilt.fns).map block).flatten ∧
      dumpList out = "f,a.c,[2:2]\ng,a.c,[4:9]\n".toList ∧
      ∀ d ∈ written guardedBuilt.fns, Block guardedFiles d (block d) :=
  dump_copies_requested_lines guardedFiles guardedGraph guardedState guardedTable
    (.empty guardedFiles) ∅ guardedBuilt rfl rfl

end OpenedExtraction.DumpedBlocks
