import OpenedExtraction.RegionGuards
import OpenedExtraction.CppLines

/-! What the guard of an extracted block keeps of the condition on the line that opened its
region, continuation lines included. How #if expressions are evaluated is left open. -/
namespace OpenedExtraction.Conditions
open OpenedExtraction.PyText OpenedExtraction.Nesting OpenedExtraction.PreprocessorMap
open OpenedExtraction.ExtractAndDump OpenedExtraction.RegionGuards
open Cpp (codeText lineDirective lead directiveOf ifdefWord ifndefWord ifWord elifWord)

/-- The file from a line on; lines count from 1. -/
def textFrom (lines : List Str) (n : Nat) : Str := (lines.drop (n - 1)).flatten

/-- What stands after the directive word on the first logical line, without comments. -/
def condition (text : Str) : Str := (codeText (text.dropWhile (· ≠ ' '))).dropWhile Cpp.blank

def firstToken (line : Str) : Str := (codeText (nameOf line ++ ['\n'])).dropWhile Cpp.blank

def wordOf : Directive → Str
  | .ifdef => ifdefWord
  | .ifnz => ifWord
  | .ifndef => ifndefWord

theorem text_eq (d : Directive) : d.text = '#' :: wordOf d ++ [' '] := by
  cases d <;> decide +kernel

theorem wordOf_ident (d : Directive) : ∀ c ∈ wordOf d, Cpp.identChar c = true := by
  cases d <;> exact List.all_eq_true.mp (by decide +kernel)

theorem elif_eq : elifstring = '#' :: elifWord ++ [' '] := by decide +kernel

theorem elifWord_ident : ∀ c ∈ elifWord, Cpp.identChar c = true :=
  List.all_eq_true.mp (by decide +kernel)

theorem codeText_blank (t : Str) :
    (codeText (' ' :: t)).dropWhile Cpp.blank = (codeText t).dropWhile Cpp.blank := by
  have hcode := Cpp.codeText_append [' '] t (by simp [Cpp.plain]) (by simp)
  rw [List.singleton_append] at hcode
  rw [hcode, List.singleton_append, Cpp.dropWhile_blank_cons]

theorem lineDirective_text {word text : Str} (hw : ∀ c ∈ word, Cpp.identChar c = true)
    (hne : word ≠ []) (h : '#' :: word ++ [' '] <+: text) :
    lineDirective text = directiveOf word (condition text) := by
  obtain ⟨rest, rfl⟩ := h
  have hcut : '#' :: word ++ [' '] ++ rest = '#' :: word ++ ' ' :: rest := by simp
  have hdrop : ('#' :: word ++ ' ' :: rest).dropWhile (· ≠ ' ') = ' ' :: rest := by
    have hall : ∀ c ∈ '#' :: word, decide (c ≠ ' ') = true := by
      intro c hc
      rw [decide_eq_true_eq]
      rintro rfl
      cases List.mem_cons.mp hc with
      | inl he => exact absurd he (by decide)
      | inr hm => exact absurd (hw _ hm) (by decide)
    rw [List.dropWhile_append_of_pos hall, List.dropWhile_cons_of_neg (by simp)]
  rw [hcut, Cpp.lineDirective_word rest hw hne, condition, hdrop, codeText_blank]

theorem lineDirective_guardLine (d : Directive) (line : Str) :
    lineDirective (guardLine (d, nameOf line)) = directiveOf (wordOf d) (firstToken line) := by
  have hcut : guardLine (d, nameOf line) =
      '#' :: wordOf d ++ ' ' :: (' ' :: (nameOf line ++ ['\n'])) := by
    rw [guardLine, text_eq]
    simp
  rw [hcut, Cpp.lineDirective_word _ (wordOf_ident d) (by cases d <;> decide +kernel),
    codeText_blank, firstToken]

def words (expr : Str) : List Str := (expr.splitOnP Cpp.blank).filter (· ≠ [])

/-- An evaluation of #if expressions, which are given by their words. -/
abbrev Evaluation := Assignment → List Str → Bool

section Truth
variable (value : Evaluation)

def truth (σ : Assignment) : Cpp.Directive → Option Bool
  | .ifdef n => some (decide (n ≠ [] ∧ (σ n).isSome = true))
  | .ifndef n => some (decide (n ≠ [] ∧ (σ n).isNone = true))
  | .ifTrue expr | .elif expr => some (value σ (words expr))
  | _ => none

/-- The truth of the directive at the head of a text. -/
def lineTruth (σ : Assignment) (text : Str) : Option Bool :=
  (lineDirective text).bind (truth value σ)

/-- The first token of the line is the whole condition: on an #if line nothing but blanks and
comments follows it, on an #ifdef or #ifndef line it begins with the macro. An #elif line, which
becomes an #ifdef, has no such token. -/
def Carried (line text : Str) : Prop :=
  if Directive.ifnz.text <+: line then words (condition text) = words (firstToken line)
  else ¬ elifstring <+: line ∧ lead (condition text) = lead (firstToken line)

variable {value}

theorem test_iff (p : Option Int → Bool) (v v' : Option Int) (hv : p v = true) (hv' : p v' = false)
    (n m : Str) :
    (∀ σ : Assignment, decide (n ≠ [] ∧ p (σ n) = true) = decide (m ≠ [] ∧ p (σ m) = true)) ↔
      n = m := by
  constructor
  · intro h
    by_contra hne
    -- the test of one of two names differs from that of the other unless it is empty
    have hempty : ∀ a b : Str, a ≠ b →
        (∀ σ : Assignment, decide (a ≠ [] ∧ p (σ a) = true) = decide (b ≠ [] ∧ p (σ b) = true)) →
        b = [] := by
      intro a b hab hall
      have hb := hall fun x => if x = b then v else v'
      simpa [hab, hv, hv'] using hb
    have hm := hempty n m hne h
    have hn := hempty m n (Ne.symm hne) fun σ => (h σ).symm
    exact hne (hn.trans hm.symm)
  · intro he σ
    rw [he]

theorem ifdef_truth_iff (n m : Str) :
    (∀ (value : Evaluation) (σ : Assignment),
        truth value σ (.ifdef n) = truth value σ (.ifdef m)) ↔ n = m := by
  simp only [truth, Option.some.injEq, forall_const]
  exact test_iff Option.isSome (some 1) none rfl rfl n m

theorem ifndef_truth_iff (n m : Str) :
    (∀ (value : Evaluation) (σ : Assignment),
        truth value σ (.ifndef n) = truth value σ (.ifndef m)) ↔ n = m := by
  simp only [truth, Option.some.injEq, forall_const]
  exact test_iff Option.isNone none (some 1) rfl rfl n m

end Truth

theorem region_line {lines : List Str} {pres : List Region} {r : Region} {line : Str}
    (h : createPreprocessorMap lines = .ok pres) (hr : r ∈ pres)
    (hl : lines[r.first - 1]? = some line) : (roleOf line).Labels r.label := by
  obtain ⟨_, st, hs⟩ := (createPreprocessorMap_ok_iff lines pres).mp h
  cases scan_label hs r hr with
  | inl hm => simp at hm
  | inr hk =>
    obtain ⟨k, x, hx, hf, hlab⟩ := hk
    have hkf : r.first - 1 = k := by omega
    rw [List.getElem?_map, ← hkf, hl, Option.map_some, Option.some.injEq] at hx
    rw [hx]
    exact hlab

theorem label_of_opener {line : Str} {d : Directive} {g : Guard} (h : d.text <+: line)
    (hl : (roleOf line).Labels g) : g = (d, nameOf line) := by
  rw [(roleOf_opener h).1] at hl
  cases hl with
  | inl he => exact (Role.opener.inj he).symm
  | inr he =>
    obtain ⟨f, b, hf, _⟩ := he
    cases hf

theorem label_of_elif {line : Str} {g : Guard} (h : elifstring <+: line)
    (hl : (roleOf line).Labels g) : g = (.ifdef, nameOf line) := by
  rw [(roleOf_elif h).1] at hl
  cases hl with
  | inl he => cases he
  | inr he =>
    obtain ⟨f, b, hf, hg⟩ := he
    rw [hg, ← Role.switch.inj hf]

/-- Expressions that every evaluation values alike have the same words. -/
theorem value_iff (expr expr' : Str) :
    (∀ (value : Evaluation) (σ : Assignment), truth value σ (.ifTrue expr) =
        truth value σ (.ifTrue expr')) ↔ words expr = words expr' := by
  constructor
  · intro h
    have hsame := h (fun _ ws => decide (ws = words expr)) fun _ => none
    simp only [truth, decide_true, Option.some.injEq] at hsame
    exact (of_decide_eq_true hsame.symm).symm
  · intro h value σ
    rw [truth, truth, h]

section Carries
variable {line text : Str}

theorem carries_opener_iff {d : Directive} (h : d.text <+: line) (ht : line <+: text) :
    (∀ (value : Evaluation) (σ : Assignment),
        lineTruth value σ (guardLine (d, nameOf line)) = lineTruth value σ text) ↔
      Carried line text := by
  have hword : '#' :: wordOf d ++ [' '] <+: text := by
    rw [← text_eq]
    exact h.trans ht
  have hline := lineDirective_text (wordOf_ident d) (by cases d <;> decide +kernel) hword
  have hne := other_not_prefix (by cases d <;> decide) h
  simp only [lineTruth, lineDirective_guardLine, hline]
  cases d with
  | ifnz =>
    rw [Carried, if_pos h]
    simp only [wordOf, Cpp.directiveOf_if, Option.bind_some]
    rw [value_iff, eq_comm]
  | ifdef =>
    have h1 := hne Directive.ifnz.text (by decide) (by decide)
    have h2 := hne elifstring (by decide) (by decide)
    rw [Carried, if_neg h1, and_iff_right h2]
    simp only [wordOf, Cpp.directiveOf_ifdef, Option.bind_some]
    rw [ifdef_truth_iff, eq_comm]
  | ifndef =>
    have h1 := hne Directive.ifnz.text (by decide) (by decide)
    have h2 := hne elifstring (by decide) (by decide)
    rw [Carried, if_neg h1, and_iff_right h2]
    simp only [wordOf, Cpp.directiveOf_ifndef, Option.bind_some]
    rw [ifndef_truth_iff, eq_comm]

/-- An evaluation may value an #elif condition other than the test of a macro does. -/
theorem not_carries_elif (h : elifstring <+: line) (ht : line <+: text) :
    ¬ ∀ (value : Evaluation) (σ : Assignment),
      lineTruth value σ (guardLine (.ifdef, nameOf line)) = lineTruth value σ text := by
  have hword : '#' :: elifWord ++ [' '] <+: text := by
    rw [← elif_eq]
    exact h.trans ht
  have hline := lineDirective_text elifWord_ident (by decide +kernel) hword
  intro hall
  have htrue := hall (fun _ _ => true) fun _ => none
  have hfalse := hall (fun _ _ => false) fun _ => none
  simp only [lineTruth, lineDirective_guardLine, hline, wordOf, Cpp.directiveOf_ifdef,
    Cpp.directiveOf_elif, Option.bind_some, truth] at htrue hfalse
  rw [htrue] at hfalse
  cases hfalse

end Carries

theorem textFrom_line {lines : List Str} {n : Nat} {line : Str} (h : lines[n - 1]? = some line) :
    line <+: textFrom lines n := by
  obtain ⟨hn, rfl⟩ := List.getElem?_eq_some_iff.mp h
  rw [textFrom, List.drop_eq_getElem_cons hn, List.flatten_cons]
  exact List.prefix_append _ _

/-- For every region that is picked for a range and that an #if, #ifdef, #ifndef or #elif line
opened: under every evaluation and every assignment the opening directive of the block has the truth
value of the whole condition on that line, if and only if its first token is the whole condition. -/
theorem guard_carries_condition_iff (fs : FS) (presDict : PresDict fs) (iFile t : Str)
    (pres : List Region) (s e : Int) (r : Region) (line : Str) (hfile : fs iFile = .text t)
    (hpres : createPreprocessorMap (readlines (universalNewlines t)) = .ok pres)
    (hmem : iFile ∈ presDict.dict.keys) (hpick : containedInPreprocessor pres s e = some r)
    (hline : (readlines (universalNewlines t))[r.first - 1]? = some line)
    (hopen : readsName line = true) :
    ∃ block opening, extractAndDump fs presDict iFile s e = .ok block ∧
      (readlines block).head? = some opening ∧
      ((∀ (value : Evaluation) (σ : Assignment), lineTruth value σ opening =
          lineTruth value σ (textFrom (readlines (universalNewlines t)) r.first)) ↔
        Carried line (textFrom (readlines (universalNewlines t)) r.first)) := by
  have hl := presDict.lookup_of_text hmem hfile hpres
  have hr : r ∈ pres := List.mem_of_find?_eq_some hpick
  have hlab := region_line hpres hr hline
  have htext := textFrom_line hline
  have hblock : ∃ rest, blockText (pickedGuard (presDict.lookup iFile) s e) iFile s e
      (readlines (universalNewlines t)) = guardLine r.label ++ rest := by
    simp [blockText, pickedGuard, hl, hpick]
  obtain ⟨rest, hrest⟩ := hblock
  refine ⟨_, guardLine r.label, extractAndDump_text presDict s e hfile, ?_, ?_⟩
  · rw [hrest, readlines_line_append _ _ (guardLine_isLine (region_token hpres r hr))]
    rfl
  · rw [readsName, decide_eq_true_eq] at hopen
    obtain hd | hd | hd | hd := hopen
    · rw [label_of_opener hd hlab]
      exact carries_opener_iff hd htext
    · rw [label_of_opener hd hlab]
      exact carries_opener_iff hd htext
    · rw [label_of_opener hd hlab]
      exact carries_opener_iff hd htext
    · have hnz := other_not_prefix (by decide) hd Directive.ifnz.text (by decide) (by decide)
      rw [label_of_elif hd hlab, Carried, if_neg hnz]
      exact iff_of_false (not_carries_elif hd htext) fun hc => hc.1 hd

/-- The second test stands on a continuation line. -/
def eitherText : Str := "#if defined(A) \\\n || defined(B)\nint f;\n#endif \n".toList

def eitherRegion : Region := ⟨(.ifnz, "defined(A)".toList), 1, 3⟩

def eitherFile : FS := filesOf [("a.c".toList, eitherText)]

def eitherDict : PresDict eitherFile :=
  (PresDict.empty eitherFile).add "a.c".toList [eitherRegion] (by decide +kernel)

theorem guard_carries_condition_iff_either :
    ∃ block opening, extractAndDump eitherFile eitherDict "a.c".toList 3 3 = .ok block ∧
      (readlines block).head? = some opening ∧
      ((∀ (value : Evaluation) (σ : Assignment), lineTruth value σ opening =
          lineTruth value σ (textFrom (readlines (universalNewlines eitherText)) 1)) ↔
        Carried "#if defined(A) \\\n".toList
          (textFrom (readlines (universalNewlines eitherText)) 1)) :=
  guard_carries_condition_iff eitherFile eitherDict "a.c".toList eitherText [eitherRegion] 3 3
    eitherRegion "#if defined(A) \\\n".toList rfl (by decide +kernel) (by decide +kernel)
    (by decide +kernel) (by decide +kernel) (by decide +kernel)

def anyOf (σ : Assignment) (ws : List Str) : Bool :=
  (ws.filter (· ≠ "||".toList)).any fun test =>
    if "defined(".toList <+: test then (σ ((test.drop 8).dropLast)).isSome
    else (σ test).any (· ≠ 0)

/-- With only B defined the condition is true and the guard that is written is false. -/
theorem second_test_lost :
    ∃ (block : Str) (σ : Assignment),
      createPreprocessorMap (readlines (universalNewlines eitherText)) = .ok [eitherRegion] ∧
      containedInPreprocessor [eitherRegion] 3 3 = some eitherRegion ∧
      extractAndDump eitherFile eitherDict "a.c".toList 3 3 = .ok block ∧
      (readlines block).head? = some "#if  defined(A)\n".toList ∧
      lineTruth anyOf σ "#if  defined(A)\n".toList = some false ∧
      lineTruth anyOf σ (textFrom (readlines (universalNewlines eitherText)) 1) = some true := by
  refine ⟨blockText (some eitherRegion.label) "a.c".toList 3 3
    (readlines (universalNewlines eitherText)),
    fun n => if n = "B".toList then some 1 else none, ?_, ?_, ?_, ?_, ?_, ?_⟩
  · decide +kernel
  · decide +kernel
  · decide +kernel
  · decide +kernel
  · decide +kernel
  · decide +kernel

end OpenedExtraction.Conditions
