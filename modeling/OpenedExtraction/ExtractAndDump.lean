import OpenedExtraction.OrderedDict
import OpenedExtraction.PreprocessorMap

/-! Copying function definitions into the extracted file: extractAndDump and dumpFns. -/
namespace OpenedExtraction.ExtractAndDump
open OpenedExtraction.PyText OpenedExtraction.Nesting OpenedExtraction.PreprocessorMap

/-- presDict: every list in it is the one the scanner returned for that file. -/
structure PresDict (fs : FS) where
  dict : OrderedDict Str (List Region)
  scanned : ∀ f p, dict.get? f = some p → createPreprocessorMapOf fs f = .ok p

def PresDict.empty (fs : FS) : PresDict fs := ⟨.empty, by simp⟩

/-- presDict[f], a defaultdict(list). -/
def PresDict.lookup {fs : FS} (d : PresDict fs) (f : Str) : List Region := d.dict.getD f []

def PresDict.add {fs : FS} (d : PresDict fs) (f : Str) (p : List Region)
    (h : createPreprocessorMapOf fs f = .ok p) : PresDict fs where
  dict := d.dict.set f p
  scanned := by
    intro g q hg
    rw [OrderedDict.get?_set] at hg
    by_cases hgf : g = f
    · simp only [hgf, if_true, Option.some.injEq] at hg
      rw [hgf, h, hg]
    · simp only [hgf, if_false] at hg
      exact d.scanned g q hg

/-- if not fileName in presDict: presDict[fileName] = create_preprocessor_map(fileName) -/
def PresDict.ensure {fs : FS} (d : PresDict fs) (f : Str) : Except PyErr (PresDict fs) :=
  if f ∈ d.dict.keys then .ok d
  else match h : createPreprocessorMapOf fs f with
    | .error e => .error e
    | .ok p => .ok (d.add f p h)

def guardLine (g : Guard) : Str := g.1.text ++ " ".toList ++ g.2 ++ "\n".toList

def endGuard : Str := "#endif \n".toList

def locationComment (iFile : Str) (startLine endLine : Int) : Str :=
  "/* Extracted from \n ".toList ++ iFile ++ " \n startLine: ".toList ++ str startLine ++
    " endLine: ".toList ++ str endLine ++ "\n */ \n".toList

/-- readline() on the lines that are left; the empty text at the end of the file. -/
def readline : List Str → Str × List Str
  | [] => ([], [])
  | l :: ls => (l, ls)

/-- The loop that passes over n lines. -/
def skipLines : Nat → List Str → List Str
  | 0, ls => ls
  | n + 1, ls => skipLines n (readline ls).2

/-- The loop that writes n lines. -/
def copyLines : Nat → List Str → Str
  | 0, _ => []
  | n + 1, ls => (readline ls).1 ++ copyLines n (readline ls).2

def extractAndDump (fs : FS) (presDict : PresDict fs) (iFile : Str) (startLine endLine : Int) :
    Except PyErr Str :=
  if exists_ fs iFile then do
    let p := presDict.lookup iFile
    let val := if p.isEmpty then none
      else (containedInPreprocessor p startLine endLine).map Span.label
    let lines ← openLines fs iFile
    -- the first loop runs while lineCt < startLine, the second while lineCt <= endLine
    let lineCt := max 1 startLine
    .ok ((val.map guardLine).getD [] ++ locationComment iFile startLine endLine ++
      copyLines (endLine + 1 - lineCt).toNat (skipLines (startLine - 1).toNat lines) ++
      (val.map fun _ => endGuard).getD [])
  else .ok []

/-- The value (funcName,srcFile,startLine,endLine) of fns. -/
structure Defn where
  funcName : Str
  srcFile : Str
  startLine : Int
  endLine : Int
  deriving DecidableEq, Repr

/-- What dumpFns writes for one function: a line of the function list and a block. -/
structure Dumped where
  defn : Defn
  entry : Str
  block : Str
  deriving DecidableEq, Repr

def entryLine (d : Defn) : Str :=
  d.funcName ++ ",".toList ++ d.srcFile ++ ",[".toList ++ str d.startLine ++ ":".toList ++
    str d.endLine ++ "]\n".toList

def hExt : Str := ".h".toList

/-- The loop body of dumpFns; an unresolved key has no definition. -/
def dumpFn (fs : FS) (presDict : PresDict fs) (out : List Dumped) (v : Option Defn) :
    Except PyErr (List Dumped) :=
  match v with
  | none => .ok out
  | some d =>
    if endswith d.srcFile hExt then .ok out
    else do
      let block ← extractAndDump fs presDict d.srcFile d.startLine d.endLine
      .ok (out ++ [⟨d, entryLine d, block⟩])

def dumpFns (fs : FS) (presDict : PresDict fs) (fns : OrderedDict Str (Option Defn)) :
    Except PyErr (List Dumped) :=
  (fns.items.map Prod.snd).foldlM (dumpFn fs presDict) []

def dumpText (out : List Dumped) : Str := (out.map Dumped.block).flatten

def dumpList (out : List Dumped) : Str := (out.map Dumped.entry).flatten

theorem guardLine_isLine {g : Guard} (h : IsToken g.2) : IsLine (guardLine g) := by
  have hn : '\n' ∉ g.2 := fun hm => by
    have := h.2 '\n' hm
    revert this
    decide
  refine ⟨g.1.text ++ " ".toList ++ g.2, rfl, ?_⟩
  have ht : '\n' ∉ g.1.text := by cases g.1 <;> decide
  simp [ht, hn]

theorem split_guardLine {g : Guard} (h : IsToken g.2) :
    split (guardLine g) = [g.1.text.dropLast, g.2] := by
  have hs : g.1.text.dropLast.all (fun c => !isspace c) = true := by cases g.1 <;> decide
  have hw : IsToken g.1.text.dropLast :=
    ⟨by cases g.1 <;> decide, by simpa only [List.all_eq_true, Bool.not_eq_true'] using hs⟩
  have ht : g.1.text = g.1.text.dropLast ++ [' '] := by cases g.1 <;> decide
  have he : guardLine g = g.1.text.dropLast ++ ' ' :: (' ' :: (g.2 ++ '\n' :: [])) := by
    rw [guardLine, ht]
    simp
  rw [he, split_word _ _ _ hw (by decide), split_blank _ _ (by decide),
    split_word _ _ _ h (by decide), split_nil]

theorem skipLines_eq (n : Nat) (ls : List Str) : skipLines n ls = ls.drop n := by
  induction n generalizing ls with
  | zero => rfl
  | succ n ih => cases ls <;> simp [skipLines, readline, ih]

theorem copyLines_eq (n : Nat) (ls : List Str) : copyLines n ls = (ls.take n).flatten := by
  induction n generalizing ls with
  | zero => simp [copyLines]
  | succ n ih => cases ls <;> simp [copyLines, readline, ih]

def sourceLines (lines : List Str) (startLine endLine : Int) : List Str :=
  (lines.drop (startLine - 1).toNat).take (endLine + 1 - max 1 startLine).toNat

def pickedGuard (pres : List Region) (startLine endLine : Int) : Option Guard :=
  (containedInPreprocessor pres startLine endLine).map Span.label

def blockText (val : Option Guard) (iFile : Str) (startLine endLine : Int) (lines : List Str) :
    Str :=
  (val.map guardLine).getD [] ++ locationComment iFile startLine endLine ++
    (sourceLines lines startLine endLine).flatten ++ (val.map fun _ => endGuard).getD []

theorem extractAndDump_text {fs : FS} (presDict : PresDict fs) {iFile t : Str}
    (startLine endLine : Int) (h : fs iFile = .text t) :
    extractAndDump fs presDict iFile startLine endLine =
      .ok (blockText (pickedGuard (presDict.lookup iFile) startLine endLine) iFile startLine
        endLine (readlines (universalNewlines t))) := by
  have he : (if (presDict.lookup iFile).isEmpty then none
      else (containedInPreprocessor (presDict.lookup iFile) startLine endLine).map Span.label) =
      pickedGuard (presDict.lookup iFile) startLine endLine := by
    cases presDict.lookup iFile <;> simp [pickedGuard, containedInPreprocessor]
  simp only [extractAndDump, exists_, openLines, h, he, blockText, sourceLines, copyLines_eq,
    skipLines_eq, bind, Except.bind, if_true]

def written (fns : OrderedDict Str (Option Defn)) : List Defn :=
  (fns.items.map Prod.snd).filterMap (Option.filter fun d => !endswith d.srcFile hExt)

theorem foldlM_dumpFn {fs : FS} (presDict : PresDict fs) (block : Defn → Str)
    (vs : List (Option Defn)) (out : List Dumped)
    (h : ∀ d ∈ vs.filterMap (Option.filter fun d => !endswith d.srcFile hExt),
      extractAndDump fs presDict d.srcFile d.startLine d.endLine = .ok (block d)) :
    vs.foldlM (dumpFn fs presDict) out = .ok (out ++
      (vs.filterMap (Option.filter fun d => !endswith d.srcFile hExt)).map
        fun d => ⟨d, entryLine d, block d⟩) := by
  induction vs generalizing out with
  | nil => simp [pure, Except.pure]
  | cons v vs ih =>
    cases v with
    | none => simpa [dumpFn, bind, Except.bind] using ih out (by simpa using h)
    | some d =>
      by_cases hh : endswith d.srcFile hExt
      · simpa [dumpFn, hh, Option.filter, bind, Except.bind] using
          ih out (by simpa [hh, Option.filter] using h)
      · simp only [List.filterMap_cons, Option.filter, hh, Bool.not_false, if_true,
          List.forall_mem_cons] at h
        have hi := ih (out ++ [⟨d, entryLine d, block d⟩]) h.2
        simpa [dumpFn, hh, h.1, Option.filter, bind, Except.bind] using hi

/-- On readable files dumpFns writes one block for each definition. -/
theorem dumpFns_ok {fs : FS} (presDict : PresDict fs) (fns : OrderedDict Str (Option Defn))
    (block : Defn → Str)
    (h : ∀ d ∈ written fns,
      extractAndDump fs presDict d.srcFile d.startLine d.endLine = .ok (block d)) :
    dumpFns fs presDict fns = .ok ((written fns).map fun d => ⟨d, entryLine d, block d⟩) := by
  simpa [dumpFns, written] using foldlM_dumpFn presDict block (fns.items.map Prod.snd) [] h

theorem PresDict.text_of_mem {fs : FS} (d : PresDict fs) {f : Str} (h : f ∈ d.dict.keys) :
    ∃ t, fs f = .text t ∧
      createPreprocessorMap (readlines (universalNewlines t)) = .ok (d.lookup f) := by
  obtain ⟨p, hp⟩ := (d.dict.mem_keys_iff f).mp h
  have hs := d.scanned f p hp
  have hl : d.lookup f = p := by simp [PresDict.lookup, OrderedDict.getD, hp]
  cases hf : fs f with
  | missing => simp [createPreprocessorMapOf, openLines, hf, bind, Except.bind] at hs
  | unreadable => simp [createPreprocessorMapOf, openLines, hf, bind, Except.bind] at hs
  | text t => exact ⟨t, rfl, by
    simpa [createPreprocessorMapOf, openLines, hf, hl, bind, Except.bind] using hs⟩

theorem PresDict.lookup_of_text {fs : FS} (d : PresDict fs) {f t : Str} {pres : List Region}
    (h : f ∈ d.dict.keys) (ht : fs f = .text t)
    (hp : createPreprocessorMap (readlines (universalNewlines t)) = .ok pres) :
    d.lookup f = pres := by
  obtain ⟨t', ht', hl⟩ := d.text_of_mem h
  rw [ht] at ht'
  rw [← Node.text.inj ht', hp, Except.ok.injEq] at hl
  exact hl.symm

def definitionBlock {fs : FS} (presDict : PresDict fs) (d : Defn) : Str :=
  match fs d.srcFile with
  | .text t => blockText (pickedGuard (presDict.lookup d.srcFile) d.startLine d.endLine)
      d.srcFile d.startLine d.endLine (readlines (universalNewlines t))
  | _ => []

theorem dumpFns_scanned {fs : FS} (presDict : PresDict fs) (fns : OrderedDict Str (Option Defn))
    (h : ∀ d ∈ written fns, d.srcFile ∈ presDict.dict.keys) :
    dumpFns fs presDict fns =
      .ok ((written fns).map fun d => ⟨d, entryLine d, definitionBlock presDict d⟩) := by
  refine dumpFns_ok presDict fns (definitionBlock presDict) ?_
  intro d hd
  obtain ⟨t, ht, _⟩ := presDict.text_of_mem (h d hd)
  rw [extractAndDump_text presDict d.startLine d.endLine ht]
  simp [definitionBlock, ht]

theorem PresDict.get?_eq {fs : FS} (d e : PresDict fs) {f : Str}
    (h : f ∈ d.dict.keys ↔ f ∈ e.dict.keys) : d.dict.get? f = e.dict.get? f := by
  cases hd : d.dict.get? f with
  | none =>
    symm
    rw [OrderedDict.get?_eq_none, ← h, ← OrderedDict.get?_eq_none]
    exact hd
  | some p =>
    obtain ⟨q, hq⟩ := (e.dict.mem_keys_iff f).mp (h.mp ((d.dict.mem_keys_iff f).mpr ⟨p, hd⟩))
    have hpq := (d.scanned f p hd).symm.trans (e.scanned f q hq)
    rw [hq, Except.ok.inj hpq]

end OpenedExtraction.ExtractAndDump
