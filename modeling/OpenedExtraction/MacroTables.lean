import OpenedExtraction.AddDefines
import OpenedExtraction.CppTables
import Mathlib.Data.List.Perm.Basic

/-! The macros that a C preprocessor takes from the copied #define lines: compared with the
source file, and for different orders of the files. -/
namespace OpenedExtraction.MacroTables
open OpenedExtraction.PyText OpenedExtraction.Cpp OpenedExtraction.AddDefines
variable {δ : Type*}

theorem blocksFrom_token {n : Nat} {p : Option Block} {lines : List Str} {bs : List Block}
    (h : blocksFrom n p lines = some bs) (hp : ∀ b ∈ p, IsToken b.key) :
    ∀ b ∈ bs, IsToken b.key := by
  fun_induction blocksFrom n p lines generalizing bs with
  | case1 => simp_all
  | case2 => simp at h
  | case3 n line lines hd ih1 ih2 =>
    rw [Option.bind_eq_some_iff] at h
    obtain ⟨key, hk, h⟩ := h
    have htok : IsToken key := by
      rw [defineKey, Option.bind_eq_some_iff] at hk
      obtain ⟨rest, _, hkey⟩ := hk
      exact mem_split rest key (List.mem_of_getElem? hkey)
    cases hc : continues line with
    | true =>
      rw [if_pos hc] at h
      exact ih1 key h (by simpa using htok)
    | false =>
      rw [if_neg (by simp [hc]), Option.map_eq_some_iff] at h
      obtain ⟨bs', h', rfl⟩ := h
      exact List.forall_mem_cons.mpr ⟨htok, ih2 h' (by simp)⟩
  | case4 n line lines hd ih => exact ih h hp
  | case5 => simp at h
  | case6 n b line lines hcut hc ih => exact ih h (by simpa [Block.extend] using hp)
  | case7 n b line lines hcut hc ih =>
    rw [Option.map_eq_some_iff] at h
    obtain ⟨bs', h', rfl⟩ := h
    exact List.forall_mem_cons.mpr ⟨by simpa [Block.extend] using hp, ih h' (by simp)⟩

def guarded (b : Block) : List Directive :=
  .ifndef (macroOf b.key) :: (b.directives ++ [.endif])

theorem reads_blocks {fullLine : Str} (hf : '\n' ∉ fullLine) {bs : List Block}
    (hc : ∀ b ∈ bs, b.Closed) (hk : ∀ b ∈ bs, IsToken b.key) :
    reads (bs.map (Block.text fullLine)).flatten = some (bs.flatMap guarded) := by
  induction bs with
  | nil => exact reads_nil
  | cons b bs ih =>
    have hn : '\n' ∉ b.key := fun hm => absurd ((hk b (by simp)).2 '\n' hm) (by decide)
    rw [List.map_cons, List.flatten_cons, List.flatMap_cons]
    exact reads_append (reads_block (hc b (by simp)) hn hf)
      (ih (fun x hx => hc x (by simp [hx])) fun x hx => hk x (by simp [hx]))

section Effect
variable (repl : Str → δ) (cond : Table δ → Str → Bool)

def firstWritten (bs : List Block) (M : Str) : Option δ :=
  bs.findSome? fun b => if M = macroOf b.key then defined repl b.directives else none

/-- Guarded blocks leave a macro as it was, or give it its first definition. -/
theorem run_blocks {s : State δ} (hs : s.frames = []) {bs : List Block}
    (hc : ∀ b ∈ bs, b.Closed) :
    (run repl cond s (bs.flatMap guarded)).frames = [] ∧
      ∀ M, (run repl cond s (bs.flatMap guarded)).table M =
        (s.table M).or (firstWritten repl bs M) := by
  induction bs generalizing s with
  | nil => exact ⟨hs, fun M => by simp [firstWritten, run]⟩
  | cons b bs ih =>
    have hb := hc b (by simp)
    obtain ⟨hf, ht⟩ := run_guarded repl cond hs hb.directives_eq.2
    obtain ⟨hf', ht'⟩ := ih hf fun x hx => hc x (by simp [hx])
    rw [List.flatMap_cons, run_append]
    refine ⟨hf', fun M => ?_⟩
    rw [guarded, ht' M, ht M, firstWritten, firstWritten, List.findSome?_cons, Option.or_assoc]
    cases (if M = macroOf b.key then defined repl b.directives else none) <;> simp

end Effect

/-- A file whose #define lines form closed blocks, with its blocks. -/
structure ClosedFile (fs : FS) (readlink : Str → Option Str) (cFile fullLine t : Str)
    (bs : List Block) : Prop where
  link : readlink cFile = some fullLine
  oneLine : '\n' ∉ fullLine
  file : fs fullLine = .text t
  blocks : blocksFrom 1 none (readlines (universalNewlines t)) = some bs
  closed : ∀ b ∈ bs, b.Closed

theorem ClosedFile.addDefines {fs : FS} {readlink : Str → Option Str} {cFile fullLine t : Str}
    {bs : List Block} (h : ClosedFile fs readlink cFile fullLine t bs) (d : Defines) :
    addDefines fs readlink d cFile = .ok (bs.foldl (addBlock fullLine) d) := by
  obtain ⟨s, hs, hacc⟩ := (foldlM_blocks fullLine (readlines (universalNewlines t))).1
    ⟨d, false, [], 0⟩ bs rfl h.blocks
  simp [AddDefines.addDefines, h.link, openLines, h.file, hs, hacc, bind, Except.bind]

theorem ClosedFile.reads {fs : FS} {readlink : Str → Option Str} {cFile fullLine t : Str}
    {bs : List Block} (h : ClosedFile fs readlink cFile fullLine t bs) :
    reads (bs.map (Block.text fullLine)).flatten = some (bs.flatMap guarded) :=
  reads_blocks h.oneLine h.closed (blocksFrom_token h.blocks (by simp))

/-- The file has a #define directive for the macro, active or not. -/
def DefinedBy (text M : Str) : Prop := ∃ rest, Directive.define M rest ∈ directives text

/-- What C keeps of a macro is what #ifndef keeps of it: the initial definition or else the first
copied one. The last directive about the macro that C processes defines it just so, or removes it
and there is neither of the two; without such a directive, nothing is copied for a macro that is
not defined initially. -/
structure KeepsFirst (repl : Str → δ) (cond : Table δ → Str → Bool) (T₀ : Table δ)
    (ds : List Directive) (bs : List Block) (M : Str) : Prop where
  defined : ∀ i v, LastAt repl cond ⟨T₀, [], []⟩ ds M i (some v) →
    T₀ M = some v ∨ (T₀ M = none ∧ firstWritten repl bs M = some v)
  removed : ∀ i, LastAt repl cond ⟨T₀, [], []⟩ ds M i none →
    T₀ M = none ∧ firstWritten repl bs M = none
  untouched : (∀ i v, ¬ AssignsAt repl cond ⟨T₀, [], []⟩ ds M i v) →
    T₀ M = none → firstWritten repl bs M = none

theorem keepsFirst_iff (repl : Str → δ) (cond : Table δ → Str → Bool) (T₀ : Table δ)
    (ds : List Directive) (bs : List Block) (M : Str) :
    KeepsFirst repl cond T₀ ds bs M ↔
      (run repl cond ⟨T₀, [], []⟩ ds).table M = (T₀ M).or (firstWritten repl bs M) := by
  rw [table_run]
  have hnone := lastAssigned_none_iff repl cond ⟨T₀, [], []⟩ ds M
  have hsome := lastAssigned_some_iff repl cond ⟨T₀, [], []⟩ ds M
  cases hl : lastAssigned repl cond ⟨T₀, [], []⟩ ds M with
  | none =>
    have hno := hnone.mp hl
    have hkeep : T₀ M = (T₀ M).or (firstWritten repl bs M) ↔
        (T₀ M = none → firstWritten repl bs M = none) := by
      cases T₀ M <;> simp [eq_comm]
    rw [Option.getD_none, hkeep]
    refine ⟨fun h => h.untouched hno, fun h => ⟨?_, ?_, fun _ => h⟩⟩
    · intro i v hi
      exact absurd hi.1 (hno i (some v))
    · intro i hi
      exact absurd hi.1 (hno i none)
  | some r =>
    obtain ⟨i, hi⟩ := (hsome r).mp hl
    have hlast : ∀ j w, LastAt repl cond ⟨T₀, [], []⟩ ds M j w → w = r := fun j w hj =>
      Option.some.inj (((hsome w).mpr ⟨j, hj⟩).symm.trans hl)
    rw [Option.getD_some, eq_comm]
    cases r with
    | none =>
      rw [Option.or_eq_none_iff]
      refine ⟨fun h => h.removed i hi, fun h => ⟨?_, fun _ _ => h, fun hno => ?_⟩⟩
      · intro j v hj
        cases hlast j (some v) hj
      · exact absurd hi.1 (hno i none)
    | some v =>
      rw [Option.or_eq_some_iff]
      refine ⟨fun h => h.defined i v hi, fun h => ⟨?_, ?_, fun hno => ?_⟩⟩
      · intro j w hj
        rw [Option.some.inj (hlast j (some w) hj)]
        exact h
      · intro j hj
        cases hlast j none hj
      · exact absurd hi.1 (hno i (some v))

/-- The macros of a file agree with those of its copied #define lines if and only if C keeps of
each macro that the file defines what #ifndef keeps of it. -/
theorem defines_agree_iff (fs : FS) (readlink : Str → Option Str) (cFile fullLine t : Str)
    (bs : List Block) (h : ClosedFile fs readlink cFile fullLine t bs)
    (repl : Str → δ) (cond : Table δ → Str → Bool) (T₀ : Table δ) :
    ∃ d, addDefines fs readlink .empty cFile = .ok d ∧
      ((∀ M, DefinedBy (universalNewlines t) M →
          (preprocess repl cond T₀ (universalNewlines t)).table M =
            (preprocess repl cond T₀ d.text).table M) ↔
        ∀ M, DefinedBy (universalNewlines t) M →
          KeepsFirst repl cond T₀ (directives (universalNewlines t)) bs M) := by
  refine ⟨_, h.addDefines .empty, ?_⟩
  have hout : ∀ M, (preprocess repl cond T₀ (bs.foldl (addBlock fullLine) .empty).text).table M =
      (T₀ M).or (firstWritten repl bs M) := by
    intro M
    have htext : (bs.foldl (addBlock fullLine) .empty).text =
        (bs.map (Block.text fullLine)).flatten := by
      rw [foldl_addBlock_text]
      rfl
    rw [htext, preprocess, directives_of_reads h.reads]
    exact (run_blocks repl cond (s := ⟨T₀, [], []⟩) rfl h.closed).2 M
  refine forall_congr' fun M => ?_
  rw [hout M, preprocess, keepsFirst_iff]

/-- A name with a comment, and a continued line before an empty one. -/
def commentedText : Str := "#ifndef A\n#define A/*c*/ 1\n#endif\n#define B \\\n\n  2\n".toList

def commentedFile : FS := filesOf [("a.c".toList, commentedText)]

def commentedBlocks : List Block :=
  [⟨"A/*c*/".toList, 2, ["#define A/*c*/ 1\n".toList]⟩,
    ⟨"B".toList, 4, ["#define B \\\n".toList, ['\n'], "  2\n".toList]⟩]

theorem commented_closed :
    ClosedFile commentedFile some "a.c".toList "a.c".toList commentedText commentedBlocks := by
  refine ⟨rfl, by decide, rfl, by decide +kernel, fun b hb => ?_⟩
  simp only [commentedBlocks, List.mem_cons, List.not_mem_nil, or_false] at hb
  obtain rfl | rfl := hb
  · exact ⟨by decide +kernel, [.define "A".toList "  1".toList], by decide +kernel,
      by decide +kernel⟩
  · exact ⟨by decide +kernel, [.define "B".toList "   2".toList], by decide +kernel,
      by decide +kernel⟩

theorem defines_agree_iff_commented :
    ∃ d, addDefines commentedFile some .empty "a.c".toList = .ok d ∧
      ((∀ M, DefinedBy (universalNewlines commentedText) M →
          (preprocess id (fun _ _ => false) (fun _ => none)
              (universalNewlines commentedText)).table M =
            (preprocess id (fun _ _ => false) (fun _ => none) d.text).table M) ↔
        ∀ M, DefinedBy (universalNewlines commentedText) M →
          KeepsFirst (id : Str → Str) (fun _ _ => false) (fun _ => none)
            (directives (universalNewlines commentedText)) commentedBlocks M) :=
  defines_agree_iff commentedFile some "a.c".toList "a.c".toList commentedText commentedBlocks
    commented_closed id (fun _ _ => false) fun _ => none

/-- The definition of A is spelled with a blank after the number sign, inside #ifndef A. -/
def spacedText : Str := "#ifndef A\n# define A 1\n#endif\n".toList

def spacedFile : FS := filesOf [("a.c".toList, spacedText)]

/-- The source file defines A, the copied #define lines do not. -/
theorem spaced_define_lost :
    ∃ d, addDefines spacedFile some .empty "a.c".toList = .ok d ∧
      DefinedBy spacedText "A".toList ∧
      (preprocess id (fun _ _ => false) (fun _ => none) spacedText).table "A".toList =
        some " 1".toList ∧
      (preprocess id (fun _ _ => false) (fun _ => none) d.text).table "A".toList =
        (none : Option Str) :=
  ⟨.empty, by rfl, ⟨" 1".toList, by decide +kernel⟩, by decide +kernel, by decide +kernel⟩

theorem tally_blocks (fullLine : Str → Str) {ns : List Str} {d : Defines} (h : Tally ns d)
    (xs : List (Str × Block)) : Tally (ns ++ xs.map fun x => x.2.key)
      (xs.foldl (fun d x => addBlock (fullLine x.1) d x.2) d) := by
  induction xs generalizing d ns with
  | nil => simpa using h
  | cons x xs ih =>
    have hnext := ih ((h.record x.2.key).write (x.2.text (fullLine x.1)))
    rwa [List.append_assoc, List.singleton_append] at hnext

section Orders
variable {fs : FS} {readlink : Str → Option Str} {full text : Str → Str} {blocks : Str → List Block}

def allBlocks (blocks : Str → List Block) (files : List Str) : List (Str × Block) :=
  files.flatMap fun f => (blocks f).map fun b => (f, b)

theorem collect_eq {files : List Str}
    (h : ∀ f ∈ files, ClosedFile fs readlink f (full f) (text f) (blocks f)) (d : Defines) :
    files.foldlM (addDefines fs readlink) d =
      .ok ((allBlocks blocks files).foldl (fun d x => addBlock (full x.1) d x.2) d) := by
  induction files generalizing d with
  | nil => rfl
  | cons f files ih =>
    rw [List.foldlM_cons, (h f (by simp)).addDefines d]
    simp only [bind, Except.bind, allBlocks, List.flatMap_cons, List.foldl_append, List.foldl_map]
    exact ih (fun g hg => h g (by simp [hg])) _

theorem collect_text {files : List Str}
    (h : ∀ f ∈ files, ClosedFile fs readlink f (full f) (text f) (blocks f)) (d : Defines) :
    ∃ t, ((allBlocks blocks files).foldl (fun d x => addBlock (full x.1) d x.2) d).text =
        d.text ++ t ∧ reads t = some ((files.flatMap blocks).flatMap guarded) := by
  induction files generalizing d with
  | nil => exact ⟨[], by simp [allBlocks], reads_nil⟩
  | cons f files ih =>
    obtain ⟨t, ht, hr⟩ := ih (fun g hg => h g (by simp [hg]))
      ((blocks f).foldl (addBlock (full f)) d)
    refine ⟨((blocks f).map (Block.text (full f))).flatten ++ t, ?_, ?_⟩
    · simp only [allBlocks, List.flatMap_cons, List.foldl_append, List.foldl_map] at ht ⊢
      rw [ht, foldl_addBlock_text, List.append_assoc]
    · rw [List.flatMap_cons, List.flatMap_append]
      exact reads_append (h f (by simp)).reads hr

variable (repl : Str → δ) (cond : Table δ → Str → Bool)

theorem firstWritten_flatMap (files : List Str) (M : Str) :
    firstWritten repl (files.flatMap blocks) M =
      files.findSome? fun f => firstWritten repl (blocks f) M := by
  induction files with
  | nil => rfl
  | cons f files ih =>
    rw [List.flatMap_cons, firstWritten, List.findSome?_append, List.findSome?_cons]
    rw [firstWritten] at ih
    rw [ih, firstWritten]
    cases (blocks f).findSome? fun b => if M = macroOf b.key then defined repl b.directives else none <;>
      simp

theorem collect_table {files : List Str}
    (h : ∀ f ∈ files, ClosedFile fs readlink f (full f) (text f) (blocks f)) (T₀ : Table δ)
    (M : Str) :
    (preprocess repl cond T₀ ((allBlocks blocks files).foldl
        (fun d x => addBlock (full x.1) d x.2) .empty).text).table M =
      (T₀ M).or (files.findSome? fun f => firstWritten repl (blocks f) M) := by
  obtain ⟨t, ht, hr⟩ := collect_text h .empty
  have hempty : Defines.empty.text ++ t = t := rfl
  have hclosed : ∀ b ∈ files.flatMap blocks, b.Closed := by
    intro b hb
    obtain ⟨f, hf, hb⟩ := List.mem_flatMap.mp hb
    exact (h f hf).closed b hb
  rw [ht, hempty, preprocess, directives_of_reads hr, ← firstWritten_flatMap]
  exact (run_blocks repl cond (s := ⟨T₀, [], []⟩) rfl hclosed).2 M

theorem collect_dups (files : List Str) (k : Str) :
    k ∈ ((allBlocks blocks files).foldl (fun d x => addBlock (full x.1) d x.2) .empty).dups.keys ↔
      2 ≤ ((files.flatMap blocks).map Block.key).count k := by
  have hkeys : (allBlocks blocks files).map (fun x => x.2.key) =
      (files.flatMap blocks).map Block.key := by
    simp [allBlocks, List.map_flatMap, Function.comp_def]
  have htally := tally_blocks full tally_empty (allBlocks blocks files)
  rw [List.nil_append, hkeys] at htally
  exact htally.dups k

end Orders

theorem findSome_differs {α β : Type*} {g : α → Option β} {xs ys : List α} (hp : xs.Perm ys)
    (h : xs.findSome? g ≠ ys.findSome? g) :
    ∃ a ∈ xs, ∃ b ∈ xs, ∃ v w, g a = some v ∧ g b = some w ∧ v ≠ w := by
  cases hx : xs.findSome? g with
  | none =>
    rw [List.findSome?_eq_none_iff] at hx
    have hy : ys.findSome? g = none :=
      List.findSome?_eq_none_iff.mpr fun y hy => hx y (hp.mem_iff.mpr hy)
    exact absurd (by rw [List.findSome?_eq_none_iff.mpr hx, hy]) h
  | some v =>
    cases hy : ys.findSome? g with
    | none =>
      rw [List.findSome?_eq_none_iff] at hy
      have hx' : xs.findSome? g = none :=
        List.findSome?_eq_none_iff.mpr fun x hx => hy x (hp.mem_iff.mp hx)
      rw [hx'] at hx
      cases hx
    | some w =>
      obtain ⟨a, ha, hav⟩ := List.exists_of_findSome?_eq_some hx
      obtain ⟨b, hb, hbw⟩ := List.exists_of_findSome?_eq_some hy
      refine ⟨a, ha, b, hp.mem_iff.mpr hb, v, w, hav, hbw, fun hvw => h ?_⟩
      rw [hx, hy, hvw]

/-- Every macro whose definition depends on the order of the files is reported. -/
def OrderReported (fs : FS) (readlink : Str → Option Str) (repl : Str → δ)
    (cond : Table δ → Str → Bool) (files : List Str) : Prop :=
  ∀ (T₀ : Table δ) (o₁ o₂ : List Str) (d₁ d₂ : Defines), o₁.Perm files → o₂.Perm files →
    o₁.foldlM (addDefines fs readlink) .empty = .ok d₁ →
    o₂.foldlM (addDefines fs readlink) .empty = .ok d₂ →
    ∀ M, (preprocess repl cond T₀ d₁.text).table M ≠ (preprocess repl cond T₀ d₂.text).table M →
      ∃ k, macroOf k = M ∧ k ∈ d₁.dups.keys ∧ k ∈ d₂.dups.keys

/-- Order-dependent macros are all reported if and only if, whenever two files give a macro
different first definitions, some spelling of that macro occurs in two #define lines. -/
theorem order_reported_iff (fs : FS) (readlink : Str → Option Str) (files : List Str)
    (full text : Str → Str) (blocks : Str → List Block)
    (h : ∀ f ∈ files, ClosedFile fs readlink f (full f) (text f) (blocks f))
    (repl : Str → δ) (cond : Table δ → Str → Bool) :
    OrderReported fs readlink repl cond files ↔
      ∀ M, ∀ f ∈ files, ∀ g ∈ files, ∀ v w, firstWritten repl (blocks f) M = some v →
        firstWritten repl (blocks g) M = some w → v ≠ w →
        ∃ k, macroOf k = M ∧ 2 ≤ ((files.flatMap blocks).map Block.key).count k := by
  have hperm : ∀ o : List Str, o.Perm files →
      ∀ f ∈ o, ClosedFile fs readlink f (full f) (text f) (blocks f) :=
    fun o ho f hf => h f (ho.mem_iff.mp hf)
  have hcount : ∀ (o : List Str) (k : Str), o.Perm files →
      ((o.flatMap blocks).map Block.key).count k =
        ((files.flatMap blocks).map Block.key).count k :=
    fun o k ho => ((ho.flatMap_right blocks).map Block.key).count_eq k
  constructor
  · intro hrep M f hf g hg v w hv hw hne
    have hpf := (List.perm_cons_erase hf).symm
    have hpg := (List.perm_cons_erase hg).symm
    obtain ⟨k, hk, hd, _⟩ := hrep (fun _ => none) _ _ _ _ hpf hpg
      (collect_eq (hperm _ hpf) .empty) (collect_eq (hperm _ hpg) .empty) M (by
        rw [collect_table repl cond (hperm _ hpf), collect_table repl cond (hperm _ hpg)]
        simpa [List.findSome?_cons, hv, hw] using hne)
    rw [collect_dups, hcount _ k hpf] at hd
    exact ⟨k, hk, hd⟩
  · intro hcond T₀ o₁ o₂ d₁ d₂ h₁ h₂ hd₁ hd₂ M hne
    rw [collect_eq (hperm o₁ h₁), Except.ok.injEq] at hd₁
    rw [collect_eq (hperm o₂ h₂), Except.ok.injEq] at hd₂
    rw [← hd₁, ← hd₂, collect_table repl cond (hperm o₁ h₁),
      collect_table repl cond (hperm o₂ h₂)] at hne
    have hfirst : (o₁.findSome? fun f => firstWritten repl (blocks f) M) ≠
        o₂.findSome? fun f => firstWritten repl (blocks f) M := fun he => hne (by rw [he])
    obtain ⟨f, hf, g, hg, v, w, hv, hw, hvw⟩ := findSome_differs (h₁.trans h₂.symm) hfirst
    obtain ⟨k, hk, hc⟩ := hcond M f (h₁.mem_iff.mp hf) g (h₁.mem_iff.mp hg) v w hv hw hvw
    refine ⟨k, hk, ?_, ?_⟩
    · rw [← hd₁, collect_dups, hcount o₁ k h₁]
      exact hc
    · rw [← hd₂, collect_dups, hcount o₂ k h₂]
      exact hc

def pairText (f : Str) : Str :=
  if f = "a.c".toList then "#define F(x) 1\n".toList else "#define F(y) 2\n".toList

def pairKey (f : Str) : Str := if f = "a.c".toList then "F(x)".toList else "F(y)".toList

def pairNames : List Str := ["a.c".toList, "b.c".toList]

def pairFiles : FS := filesOf (pairNames.map fun f => (f, pairText f))

def pairBlocks (f : Str) : List Block := [⟨pairKey f, 1, [pairText f]⟩]

theorem pair_closed : ∀ f ∈ pairNames,
    ClosedFile pairFiles some f (id f) (pairText f) (pairBlocks f) := by
  intro f hf
  simp only [pairNames, List.mem_cons, List.not_mem_nil, or_false] at hf
  obtain rfl | rfl := hf
  · refine ⟨rfl, by decide, by rfl, by decide +kernel, fun b hb => ?_⟩
    rw [List.mem_singleton.mp hb]
    exact ⟨by decide +kernel, [.define "F".toList "(x) 1".toList], by decide +kernel,
      by decide +kernel⟩
  · refine ⟨rfl, by decide, by rfl, by decide +kernel, fun b hb => ?_⟩
    rw [List.mem_singleton.mp hb]
    exact ⟨by decide +kernel, [.define "F".toList "(y) 2".toList], by decide +kernel,
      by decide +kernel⟩

theorem order_reported_iff_pair :
    OrderReported pairFiles some (id : Str → Str) (fun _ _ => false) pairNames ↔
      ∀ M, ∀ f ∈ pairNames, ∀ g ∈ pairNames, ∀ v w,
        firstWritten id (pairBlocks f) M = some v → firstWritten id (pairBlocks g) M = some w →
        v ≠ w →
        ∃ k, macroOf k = M ∧ 2 ≤ ((pairNames.flatMap pairBlocks).map Block.key).count k :=
  order_reported_iff pairFiles some pairNames id pairText pairBlocks pair_closed id
    fun _ _ => false

def pairCollected (files : List Str) : Defines :=
  (allBlocks pairBlocks files).foldl (fun d x => addBlock (id x.1) d x.2) .empty

theorem pairCollected_eq {files : List Str} (h : files.Perm pairNames) :
    files.foldlM (addDefines pairFiles some) .empty = .ok (pairCollected files) ∧
      ∀ M, (preprocess id (fun _ _ => false) (fun _ => none) (pairCollected files).text).table M =
        files.findSome? fun f => firstWritten (id : Str → Str) (pairBlocks f) M := by
  have hc : ∀ f ∈ files, ClosedFile pairFiles some f (id f) (pairText f) (pairBlocks f) :=
    fun f hf => pair_closed f (h.mem_iff.mp hf)
  exact ⟨collect_eq hc .empty, collect_table id (fun _ _ => false) hc fun _ => none⟩

/-- F ends with different definitions in the two orders, and nothing is reported. -/
theorem order_dependence_unreported :
    ∃ d₁ d₂, pairNames.foldlM (addDefines pairFiles some) .empty = .ok d₁ ∧
      pairNames.reverse.foldlM (addDefines pairFiles some) .empty = .ok d₂ ∧
      (preprocess id (fun _ _ => false) (fun _ => none) d₁.text).table "F".toList =
        some "(x) 1".toList ∧
      (preprocess id (fun _ _ => false) (fun _ => none) d₂.text).table "F".toList =
        some "(y) 2".toList ∧
      d₁.dups.keys = [] ∧ d₂.dups.keys = [] ∧
      ¬ OrderReported pairFiles some (id : Str → Str) (fun _ _ => false) pairNames := by
  obtain ⟨h₁, ht₁⟩ := pairCollected_eq (List.Perm.refl pairNames)
  obtain ⟨h₂, ht₂⟩ := pairCollected_eq (List.reverse_perm pairNames)
  have hv₁ : (pairNames.findSome? fun f => firstWritten id (pairBlocks f) "F".toList) =
      some "(x) 1".toList := by decide +kernel
  have hv₂ : (pairNames.reverse.findSome? fun f => firstWritten id (pairBlocks f) "F".toList) =
      some "(y) 2".toList := by decide +kernel
  have hk : (pairCollected pairNames).dups.keys = [] := by decide +kernel
  refine ⟨_, _, h₁, h₂, (ht₁ _).trans hv₁, (ht₂ _).trans hv₂, hk, by decide +kernel, fun hr => ?_⟩
  obtain ⟨k, _, hd, _⟩ := hr (fun _ => none) _ _ _ _ (List.Perm.refl pairNames)
    (List.reverse_perm pairNames) h₁ h₂ "F".toList (by
      rw [ht₁, ht₂, hv₁, hv₂]
      decide)
  rw [hk] at hd
  cases hd

end OpenedExtraction.MacroTables
