import OpenedExtraction.ExtractAndDump
import Mathlib.Data.Finset.Basic

/-! Reading the output of codequery: the requested functions and maps, and the headers
that the requested sources include. -/
namespace OpenedExtraction.CallGraph
open OpenedExtraction.PyText OpenedExtraction.ExtractAndDump

/-- The module variables that parsing fills. -/
structure GraphState where
  fns : OrderedDict Str (Option Defn)
  duplicates : List Str
  headers : OrderedDict Str Str
  graph : OrderedDict Str (Finset Str)
  maps : OrderedDict Str Unit

def GraphState.empty : GraphState := ⟨.empty, [], .empty, .empty, .empty⟩

def cExt : Str := ".c".toList
def includeText : Str := "#include".toList

/-- The operand recorded for an include line: its last token without quotes. -/
def includeOperand (line : Str) : Except PyErr Str :=
  match (split line).getLast? with
  | some h => .ok (remove '"' h)
  | none => .error .indexError

/-- The loop body of addDependsOn. -/
def addInclude (cFile : Str) (g : GraphState) (line : Str) : Except PyErr GraphState :=
  if contains includeText line then do
    let h ← includeOperand line
    .ok { g with
      graph := g.graph.set h (insert cFile (g.graph.getD h ∅))
      headers := g.headers.set h cFile }
  else .ok g

def addDependsOn (fs : FS) (g : GraphState) (cFile : Str) : Except PyErr GraphState := do
  let lines ← openLines fs cFile
  lines.foldlM (addInclude cFile) g

/-- int(s), which may raise ValueError. -/
def toInt (s : Str) : Except PyErr Int :=
  match int s with
  | some n => .ok n
  | none => .error .valueError

/-- The key that joins call graph and function table. -/
def fnKey (name file : Str) : Str := name ++ ":".toList ++ file

/-- Headers are recorded for .c sources only. -/
def addSource (fs : FS) (g : GraphState) (src : Str) : Except PyErr GraphState :=
  if endswith src cExt then addDependsOn fs g src else .ok g

def processFuncLine (fs : FS) (g : GraphState) (line : Str) : Except PyErr GraphState := do
  let line := remove ']' (remove '[' line)
  let tokens := line.splitOn ','
  let fnName ← item tokens 0
  let count ← item tokens 1
  let count ← toInt count
  if count > 1 then .ok { g with duplicates := g.duplicates ++ [line] }
  else do
    let src ← item tokens 2
    let g ← addSource fs g src
    let _startLine ← item tokens 3
    .ok { g with fns := g.fns.set (fnKey fnName src) none }

def processMapLine (g : GraphState) (line : Str) : Except PyErr GraphState := do
  let line := remove ']' (remove '[' line)
  let tokens := line.splitOn ','
  let mapName ← item tokens 0
  let _srcFile ← item tokens 1
  let _startLine ← item tokens 2
  let _isFound ← item tokens 3
  .ok { g with maps := g.maps.set mapName () }

/-- re.match(r"[{}]", line) -/
def isBrace : Str → Bool
  | c :: _ => c = '{' || c = '}'
  | [] => false

/-- The loop body of parseFunctionCallGraph; ct counts the brace lines. -/
def parseLine (fs : FS) (s : Nat × GraphState) (line : Str) : Except PyErr (Nat × GraphState) :=
  if isBrace line then .ok (s.1 + 1, s.2)
  else if s.1 < 2 then do
    let g ← processFuncLine fs s.2 line
    .ok (s.1, g)
  else if s.1 > 2 ∧ s.1 < 4 then do
    let g ← processMapLine s.2 line
    .ok (s.1, g)
  else .ok s

def parseFunctionCallGraph (fs : FS) (lines : List Str) (g : GraphState) :
    Except PyErr GraphState := do
  let s ← lines.foldlM (parseLine fs) (0, g)
  .ok s.2

theorem includeOperand_eq {line : Str} (hc : contains includeText line = true) :
    includeOperand line = .ok (remove '"' ((split line).getLastD [])) := by
  have hm : '#' ∈ line := (contains_iff _ _).mp hc |>.subset (by decide)
  have hne : split line ≠ [] := split_ne_nil hm (by decide)
  rw [includeOperand, List.getLast?_eq_some_getLast hne, List.getLastD_eq_getLast?,
    List.getLast?_eq_some_getLast hne]
  rfl

theorem addInclude_cases {g g' : GraphState} {cFile line : Str}
    (h : addInclude cFile g line = .ok g') :
    (∃ w, contains includeText line = true ∧ includeOperand line = .ok w ∧ g' = { g with
      graph := g.graph.set w (insert cFile (g.graph.getD w ∅))
      headers := g.headers.set w cFile }) ∨
    (contains includeText line = false ∧ g' = g) := by
  by_cases hc : contains includeText line
  · simp only [addInclude, hc, if_true, bind_eq_ok, Except.ok.injEq] at h
    obtain ⟨w, hw, rfl⟩ := h
    exact Or.inl ⟨w, hc, hw, rfl⟩
  · rw [addInclude, if_neg hc, Except.ok.injEq] at h
    exact Or.inr ⟨by simpa using hc, h.symm⟩

theorem addInclude_returns (cFile : Str) (g : GraphState) (line : Str) :
    ∃ h, addInclude cFile g line = .ok h := by
  by_cases hc : contains includeText line
  · rw [addInclude, if_pos hc, includeOperand_eq hc]
    exact ⟨_, rfl⟩
  · exact ⟨g, by rw [addInclude, if_neg hc]⟩

theorem foldlM_returns (cFile : Str) (lines : List Str) (g : GraphState) :
    ∃ h, lines.foldlM (addInclude cFile) g = .ok h := by
  induction lines generalizing g with
  | nil => exact ⟨g, rfl⟩
  | cons line lines ih =>
    obtain ⟨g₁, h₁⟩ := addInclude_returns cFile g line
    obtain ⟨h, hh⟩ := ih g₁
    exact ⟨h, foldlM_cons_ok h₁ hh⟩

theorem addDependsOn_returns {fs : FS} {cFile t : Str} (g : GraphState) (ht : fs cFile = .text t) :
    ∃ h, addDependsOn fs g cFile = .ok h := by
  obtain ⟨h, hh⟩ := foldlM_returns cFile (readlines (universalNewlines t)) g
  refine ⟨h, ?_⟩
  rw [addDependsOn, bind_eq_ok]
  exact ⟨_, by rw [openLines, ht], hh⟩

def Unresolved (fns : OrderedDict Str (Option Defn)) : Prop :=
  ∀ k v, fns.get? k = some v → v = none

theorem addInclude_fns {g g' : GraphState} {cFile line : Str}
    (h : addInclude cFile g line = .ok g') : g'.fns = g.fns := by
  obtain ⟨w, _, _, rfl⟩ | ⟨_, rfl⟩ := addInclude_cases h
  · rfl
  · rfl

theorem addDependsOn_fns {fs : FS} {g g' : GraphState} {cFile : Str}
    (h : addDependsOn fs g cFile = .ok g') : g'.fns = g.fns := by
  rw [addDependsOn, bind_eq_ok] at h
  obtain ⟨lines, _, h⟩ := h
  refine foldlM_invariant (fun x => x.fns = g.fns) ?_ h rfl
  intro a line b _ ha hb
  exact (addInclude_fns hb).trans ha

theorem addSource_fns {fs : FS} {g g' : GraphState} {src : Str}
    (h : addSource fs g src = .ok g') : g'.fns = g.fns := by
  by_cases hs : endswith src cExt
  · rw [addSource, if_pos hs] at h
    exact addDependsOn_fns h
  · rw [addSource, if_neg hs, Except.ok.injEq] at h
    rw [h]

theorem processFuncLine_fns {fs : FS} {g g' : GraphState} {line : Str}
    (h : processFuncLine fs g line = .ok g') :
    g'.fns = g.fns ∨ ∃ k, g'.fns = g.fns.set k none := by
  simp only [processFuncLine, bind_eq_ok] at h
  obtain ⟨fnName, _, _, _, count, _, h⟩ := h
  by_cases hc : count > 1
  · simp only [hc, if_true, Except.ok.injEq] at h
    rw [← h]
    exact Or.inl rfl
  · simp only [hc, if_false, bind_eq_ok, Except.ok.injEq] at h
    obtain ⟨src, _, g₁, hg, _, _, rfl⟩ := h
    exact Or.inr ⟨fnKey fnName src, by rw [addSource_fns hg]⟩

theorem processMapLine_fns {g g' : GraphState} {line : Str}
    (h : processMapLine g line = .ok g') : g'.fns = g.fns := by
  simp only [processMapLine, bind_eq_ok, Except.ok.injEq] at h
  obtain ⟨_, _, _, _, _, _, _, _, rfl⟩ := h
  rfl

theorem Unresolved.set {fns : OrderedDict Str (Option Defn)} (h : Unresolved fns) (k : Str) :
    Unresolved (fns.set k none) := by
  intro k' v hv
  rw [OrderedDict.get?_set] at hv
  by_cases hk : k' = k
  · rw [if_pos hk] at hv
    exact (Option.some.inj hv).symm
  · rw [if_neg hk] at hv
    exact h k' v hv

theorem parseLine_unresolved {fs : FS} {s s' : Nat × GraphState} {line : Str}
    (hs : Unresolved s.2.fns) (h : parseLine fs s line = .ok s') : Unresolved s'.2.fns := by
  by_cases hb : isBrace line
  · simp only [parseLine, hb, if_true, Except.ok.injEq] at h
    rw [← h]
    exact hs
  · by_cases h2 : s.1 < 2
    · simp only [parseLine, hb, h2, Bool.false_eq_true, if_false, if_true, bind_eq_ok,
        Except.ok.injEq] at h
      obtain ⟨g, hg, rfl⟩ := h
      cases processFuncLine_fns hg with
      | inl he => simp only [he]; exact hs
      | inr he =>
        obtain ⟨k, he⟩ := he
        simp only [he]
        exact hs.set k
    · by_cases h4 : s.1 > 2 ∧ s.1 < 4
      · rw [parseLine, if_neg hb, if_neg h2, if_pos h4, bind_eq_ok] at h
        obtain ⟨g, hg, he⟩ := h
        cases he
        simp only [processMapLine_fns hg]
        exact hs
      · rw [parseLine, if_neg hb, if_neg h2, if_neg h4, Except.ok.injEq] at h
        rw [← h]
        exact hs

/-- After parsing every requested function is still without a definition. -/
theorem parse_unresolved {fs : FS} {lines : List Str} {g : GraphState}
    (h : parseFunctionCallGraph fs lines .empty = .ok g) : Unresolved g.fns := by
  rw [parseFunctionCallGraph, bind_eq_ok] at h
  obtain ⟨s, hs, he⟩ := h
  rw [← Except.ok.inj he]
  refine foldlM_invariant (fun s : Nat × GraphState => Unresolved s.2.fns) ?_ hs ?_
  · intro a line b _ ha hb
    exact parseLine_unresolved ha hb
  · intro k v hv
    simp [GraphState.empty] at hv

end OpenedExtraction.CallGraph
