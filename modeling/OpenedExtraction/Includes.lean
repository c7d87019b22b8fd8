import OpenedExtraction.Headers

/-! From the #include directives of a source to those that are written on its account. -/
namespace OpenedExtraction.Includes
open OpenedExtraction.PyText OpenedExtraction.CallGraph OpenedExtraction.Cpp OpenedExtraction.Headers

def upTo (q : Char) (t : Str) : Option Str :=
  if q ∈ t then some (t.takeWhile (· ≠ q) ++ [q]) else none

/-- The header name at the beginning of an operand, <x> or "x" with its delimiters. -/
def headerName : Str → Option Str
  | '<' :: t => (upTo '>' t).map ('<' :: ·)
  | '"' :: t => (upTo '"' t).map ('"' :: ·)
  | _ => none

def includedName : Directive → Option Str
  | .include_ operand => headerName operand
  | _ => none

def includes (text : Str) : List Str := (directives text).filterMap includedName

/-- The directives that C finds in a text that stands after another one. -/
def directivesAfter (before t : Str) : List Directive :=
  (lex (lex .start (splice before)).2 (splice t)).1.filterMap directive

theorem directivesAfter_of_reads {before t : Str} {ds es : List Directive}
    (hb : reads before = some ds) (ht : reads t = some es) : directivesAfter before t = es := by
  obtain ⟨⟨ls, hl, _⟩, _⟩ := (reads_iff before ds).mp hb
  obtain ⟨⟨ls', hl', he⟩, _⟩ := (reads_iff t es).mp ht
  rw [directivesAfter, hl, hl', he]

/-- C finds every #include of the text in the section that is written, and every #include that it
finds in what is written for the headers of the file has an operand of the text. -/
def IncludesSurvive (upper : Str → Str) (text cFile : Str) (headers : OrderedDict Str Str) : Prop :=
  (∀ name ∈ includes text, name ∈ includes (writeHeaders upper headers)) ∧
    ∀ before kv after, headers.items = before ++ kv :: after → kv.2 = cFile →
      ∀ operand, .include_ operand ∈
          directivesAfter (before.map (headerText upper)).flatten (headerText upper kv) →
        ∃ name ∈ includes text, headerName operand = some name

def Takes (line h : Str) : Prop := contains includeText line = true ∧ includeOperand line = .ok h

theorem addInclude_get? {cFile line : Str} {g g' : GraphState}
    (hg : addInclude cFile g line = .ok g') (h : Str) :
    (Takes line h → g'.headers.get? h = some cFile) ∧
      (¬ Takes line h → g'.headers.get? h = g.headers.get? h) := by
  obtain ⟨w, hc, hw, rfl⟩ | ⟨hc, rfl⟩ := addInclude_cases hg
  · simp only [Takes, hc, hw, true_and, Except.ok.injEq, OrderedDict.get?_set]
    exact ⟨fun he => if_pos he.symm, fun hne => if_neg (Ne.symm hne)⟩
  · exact ⟨fun ht => by simp [Takes, hc] at ht, fun _ => rfl⟩

theorem foldlM_get? {cFile : Str} {lines : List Str} {g g' : GraphState}
    (hg : lines.foldlM (addInclude cFile) g = .ok g') (h : Str) :
    ((∃ line ∈ lines, Takes line h) → g'.headers.get? h = some cFile) ∧
      ((¬ ∃ line ∈ lines, Takes line h) → g'.headers.get? h = g.headers.get? h) := by
  refine foldlM_passed (fun passed x =>
    ((∃ line ∈ passed, Takes line h) → x.headers.get? h = some cFile) ∧
      ((¬ ∃ line ∈ passed, Takes line h) → x.headers.get? h = g.headers.get? h)) ?_ hg (by simp)
  intro passed line x x' _ hx hx'
  obtain ⟨hset, hkeep⟩ := addInclude_get? hx' h
  by_cases ht : Takes line h
  · exact ⟨fun _ => hset ht, fun hnone => absurd ⟨line, by simp, ht⟩ hnone⟩
  · have hsame : (∃ l ∈ passed ++ [line], Takes l h) ↔ ∃ l ∈ passed, Takes l h := by
      simp [or_and_right, exists_or, ht]
    rw [hsame, hkeep ht]
    exact hx

def FileTakes (fs : FS) (cFile h : Str) : Prop :=
  ∃ t, fs cFile = .text t ∧ ∃ line ∈ readlines (universalNewlines t), Takes line h

theorem addDependsOn_get? {fs : FS} {cFile : Str} {g g' : GraphState}
    (hg : addDependsOn fs g cFile = .ok g') (h : Str) :
    (FileTakes fs cFile h → g'.headers.get? h = some cFile) ∧
      (¬ FileTakes fs cFile h → g'.headers.get? h = g.headers.get? h) := by
  rw [addDependsOn, bind_eq_ok] at hg
  obtain ⟨lines, hl, hg⟩ := hg
  have htakes : FileTakes fs cFile h ↔ ∃ line ∈ lines, Takes line h := by
    cases hn : fs cFile with
    | text t =>
      rw [openLines, hn, Except.ok.injEq] at hl
      simp [FileTakes, hn, hl]
    | missing | unreadable => simp [openLines, hn] at hl
  rw [htakes]
  exact foldlM_get? hg h

theorem takes_of_calls {fs : FS} {cFiles : List Str} {g : GraphState}
    (hg : cFiles.foldlM (addDependsOn fs) .empty = .ok g) {f h : Str}
    (hf : g.headers.get? h = some f) : FileTakes fs f h := by
  refine foldlM_invariant
    (fun x : GraphState => ∀ f, x.headers.get? h = some f → FileTakes fs f h) ?_ hg ?_ f hf
  · intro a cFile b _ ha hb f hf
    obtain ⟨hset, hkeep⟩ := addDependsOn_get? hb h
    by_cases ht : FileTakes fs cFile h
    · rw [hset ht, Option.some.injEq] at hf
      exact hf ▸ ht
    · rw [hkeep ht] at hf
      exact ha f hf
  · intro f hf
    simp [GraphState.empty] at hf

/-- The header name that C finds in what is written for a header. -/
def spelled (kv : Str × Str) : Option Str := headerName (operandOf kv)

section Reading
variable {upper : Str → Str}

theorem mem_headerDirectives (kv : Str × Str) (operand : Str) :
    .include_ operand ∈ headerDirectives upper kv ↔ operand = operandOf kv := by
  cases hquoted : quoted kv.1 with
  | true =>
    have hdefine : .include_ operand ∉ (directiveOf defineWord (guardRest upper kv.1)).toList := by
      rw [directiveOf, if_pos rfl]
      split <;> simp
    simp [headerDirectives, hquoted, hdefine]
  | false => simp [headerDirectives, hquoted]

theorem mem_includes {headers : OrderedDict Str Str}
    (hr : reads (writeHeaders upper headers) =
      some (headers.items.flatMap (headerDirectives upper))) (name : Str) :
    name ∈ includes (writeHeaders upper headers) ↔
      ∃ kv ∈ headers.items, spelled kv = some name := by
  rw [includes, directives_of_reads hr, List.mem_filterMap]
  constructor
  · intro h
    obtain ⟨d, hd, hn⟩ := h
    obtain ⟨kv, hm, hd⟩ := List.mem_flatMap.mp hd
    cases d with
    | include_ operand =>
      refine ⟨kv, hm, ?_⟩
      rwa [spelled, ← (mem_headerDirectives kv operand).mp hd]
    | define | undef | ifdef | ifndef | ifTrue | elif | else_ | endif => cases hn
  · intro h
    obtain ⟨kv, hm, hn⟩ := h
    refine ⟨.include_ (operandOf kv), List.mem_flatMap.mpr ⟨kv, hm, ?_⟩, hn⟩
    exact (mem_headerDirectives kv _).mpr rfl

theorem mem_directivesAfter (hu : ∀ s, '\n' ∉ s → '\n' ∉ upper s) {headers : OrderedDict Str Str}
    (hr : ∀ kv ∈ headers.items, Entry kv)
    (hc : ∀ kv ∈ headers.items, quoted kv.1 = false → AngleClosed kv.1 kv.2)
    {before after : List (Str × Str)} {kv : Str × Str}
    (he : headers.items = before ++ kv :: after) (operand : Str) :
    .include_ operand ∈
        directivesAfter (before.map (headerText upper)).flatten (headerText upper kv) ↔
      operand = operandOf kv := by
  have hm : kv ∈ headers.items := by simp [he]
  have hsub : ∀ x ∈ before, x ∈ headers.items := fun x hx => by simp [he, hx]
  obtain ⟨hq, hn, hf⟩ := hr kv hm
  have hbefore := reads_entries hu (fun x hx => hr x (hsub x hx)) fun x hx => hc x (hsub x hx)
  rw [directivesAfter_of_reads hbefore (reads_headerText hu hq hn (hc kv hm) hf)]
  exact mem_headerDirectives kv operand

end Reading

def includeWords (text : Str) : List Str :=
  ((readlines text).filter (contains includeText)).map fun line => (split line).getLastD []

/-- What headers holds once the text has been read: the words of its lines with #include, marked
with the file, and what was there before and is not among them. -/
def Holds (headers : OrderedDict Str Str) (text cFile : Str) (kv : Str × Str) : Prop :=
  (∃ w ∈ includeWords text, kv = (remove '"' w, cFile)) ∨
    (headers.get? kv.1 = some kv.2 ∧ ∀ w ∈ includeWords text, remove '"' w ≠ kv.1)

/-- The last words of the lines that mention #include, and the headers of earlier files, spell the
operands of all #include directives, and those words spell nothing else. -/
def LaidOut (headers : OrderedDict Str Str) (text cFile : Str) : Prop :=
  (∀ name ∈ includes text, ∃ kv, Holds headers text cFile kv ∧ spelled kv = some name) ∧
    ∀ w ∈ includeWords text, ∃ name ∈ includes text, spelled (remove '"' w, cFile) = some name

theorem takes_iff (text h : Str) :
    (∃ line ∈ readlines text, Takes line h) ↔ ∃ w ∈ includeWords text, remove '"' w = h := by
  constructor
  · intro hm
    obtain ⟨line, hl, hc, ho⟩ := hm
    rw [includeOperand_eq hc, Except.ok.injEq] at ho
    exact ⟨_, List.mem_map_of_mem (List.mem_filter.mpr ⟨hl, hc⟩), ho⟩
  · intro hm
    obtain ⟨w, hw, ho⟩ := hm
    obtain ⟨line, hl, rfl⟩ := List.mem_map.mp hw
    obtain ⟨hl, hc⟩ := List.mem_filter.mp hl
    exact ⟨line, hl, hc, by rw [includeOperand_eq hc, ho]⟩

theorem holds_iff {fs : FS} {cFile t : Str} (ht : fs cFile = .text t) {g g' : GraphState}
    (hg : addDependsOn fs g cFile = .ok g') (kv : Str × Str) :
    Holds g.headers (universalNewlines t) cFile kv ↔ g'.headers.get? kv.1 = some kv.2 := by
  have htakes : FileTakes fs cFile kv.1 ↔
      ∃ w ∈ includeWords (universalNewlines t), remove '"' w = kv.1 := by
    rw [← takes_iff]
    simp [FileTakes, ht]
  obtain ⟨hset, hkeep⟩ := addDependsOn_get? hg kv.1
  by_cases hmine : FileTakes fs cFile kv.1
  · obtain ⟨w, hw, he⟩ := htakes.mp hmine
    rw [hset hmine, Option.some.injEq]
    constructor
    · intro h
      obtain ⟨w', _, hkv⟩ | ⟨_, hno⟩ := h
      · exact ((Prod.ext_iff.mp hkv).2).symm
      · exact absurd he (hno w hw)
    · intro h
      exact Or.inl ⟨w, hw, Prod.ext he.symm h.symm⟩
  · have hno := fun w hw he => hmine (htakes.mpr ⟨w, hw, he⟩)
    rw [hkeep hmine]
    constructor
    · intro h
      obtain ⟨w, hw, hkv⟩ | ⟨hget, _⟩ := h
      · exact absurd ((Prod.ext_iff.mp hkv).1).symm (hno w hw)
      · exact hget
    · intro h
      exact Or.inr ⟨h, hno⟩

theorem marked_iff {fs : FS} {cFiles : List Str} {g : GraphState}
    (hg : cFiles.foldlM (addDependsOn fs) .empty = .ok g) {cFile t : Str}
    (ht : fs cFile = .text t) (h : Str) :
    Holds g.headers (universalNewlines t) cFile (h, cFile) ↔
      ∃ w ∈ includeWords (universalNewlines t), remove '"' w = h := by
  constructor
  · intro hh
    obtain ⟨w, hw, hkv⟩ | ⟨hget, hno⟩ := hh
    · exact ⟨w, hw, ((Prod.ext_iff.mp hkv).1).symm⟩
    · obtain ⟨t', ht', hline⟩ := takes_of_calls hg hget
      rw [ht, Node.text.injEq] at ht'
      obtain ⟨w, hw, he⟩ := (takes_iff _ h).mp (ht' ▸ hline)
      exact absurd he (hno w hw)
  · intro hh
    obtain ⟨w, hw, rfl⟩ := hh
    exact Or.inl ⟨w, hw, rfl⟩

/-- Whichever files were read before: if what is written for the headers leaves no comment open,
the includes of a file survive exactly if it is laid out so. -/
theorem includes_survive_iff {fs : FS} {cFiles : List Str} (hf : ∀ f ∈ cFiles, '\n' ∉ f)
    {g : GraphState} (hg : cFiles.foldlM (addDependsOn fs) .empty = .ok g) {cFile t : Str}
    (hc : '\n' ∉ cFile) (ht : fs cFile = .text t) {upper : Str → Str}
    (hu : ∀ s, '\n' ∉ s → '\n' ∉ upper s)
    (hclosed : ∀ kv, Holds g.headers (universalNewlines t) cFile kv → quoted kv.1 = false →
      AngleClosed kv.1 kv.2) :
    ∃ g', addDependsOn fs g cFile = .ok g' ∧
      (IncludesSurvive upper (universalNewlines t) cFile g'.headers ↔
        LaidOut g.headers (universalNewlines t) cFile) := by
  obtain ⟨g', hg'⟩ := addDependsOn_returns g ht
  refine ⟨g', hg', ?_⟩
  have hitem : ∀ kv, kv ∈ g'.headers.items ↔ Holds g.headers (universalNewlines t) cFile kv :=
    fun kv => by
      rw [holds_iff ht hg' kv]
      exact ⟨g'.headers.get?_of_mem, g'.headers.mem_of_get?⟩
  have hr : ∀ kv ∈ g'.headers.items, Entry kv :=
    (addDependsOn_recorded hc (recorded_of_calls hf hg) hg').entry
  have hangle : ∀ kv ∈ g'.headers.items, quoted kv.1 = false → AngleClosed kv.1 kv.2 :=
    fun kv hm => hclosed kv ((hitem kv).mp hm)
  have hsection := mem_includes (reads_writeHeaders hu hr hangle)
  refine and_congr (forall₂_congr fun name _ => ?_) ?_
  · rw [hsection]
    exact exists_congr fun kv => and_congr_left fun _ => hitem kv
  · constructor
    · intro h w hw
      have hmine := (marked_iff hg ht (remove '"' w)).mpr ⟨w, hw, rfl⟩
      obtain ⟨before, after, he⟩ := List.append_of_mem ((hitem _).mpr hmine)
      exact h before _ after he rfl _ ((mem_directivesAfter hu hr hangle he _).mpr rfl)
    · intro h before kv after he hmark operand hop
      have hkv : kv ∈ g'.headers.items := by simp [he]
      have hholds := (hitem kv).mp hkv
      rw [show kv = (kv.1, cFile) from Prod.ext rfl hmark] at hholds
      obtain ⟨w, hw, hword⟩ := (marked_iff hg ht kv.1).mp hholds
      have hpair : (remove '"' w, cFile) = kv := Prod.ext hword hmark.symm
      obtain ⟨name, hname, hsp⟩ := h w hw
      refine ⟨name, hname, ?_⟩
      rw [(mem_directivesAfter hu hr hangle he operand).mp hop]
      rwa [hpair] at hsp

def spacedText : Str :=
  "#include  <linux/bpf.h>\n\t#include \"net/x.h\" \n# include <y.h>\nint f;\n".toList

def spacedFiles : FS :=
  filesOf [("b.c".toList, "#include <y.h>\n".toList), ("a.c".toList, spacedText)]

/-- A file with blanks before and after its directives, read after another one, which has the
directive that is not found in this one. -/
theorem includes_survive_iff_spaced :
    ∃ g g', ["b.c".toList].foldlM (addDependsOn spacedFiles) .empty = .ok g ∧
      addDependsOn spacedFiles g "a.c".toList = .ok g' ∧
      includes spacedText = ["<linux/bpf.h>".toList, "\"net/x.h\"".toList, "<y.h>".toList] ∧
      IncludesSurvive capitals (universalNewlines spacedText) "a.c".toList g'.headers := by
  have hg : ∃ g, ["b.c".toList].foldlM (addDependsOn spacedFiles) .empty = .ok g ∧
      g.headers.items = [("<y.h>".toList, "b.c".toList)] := ⟨_, rfl, by decide +kernel⟩
  obtain ⟨g, hg, hitems⟩ := hg
  have hy : g.headers.get? "<y.h>".toList = some "b.c".toList :=
    g.headers.get?_of_mem (by simp [hitems])
  have hclosed : ∀ kv, Holds g.headers (universalNewlines spacedText) "a.c".toList kv →
      quoted kv.1 = false → AngleClosed kv.1 kv.2 := by
    intro kv hh
    obtain ⟨w, hw, rfl⟩ | ⟨hget, _⟩ := hh
    · have hall : ∀ w ∈ includeWords (universalNewlines spacedText),
          quoted (remove '"' w) = false → AngleClosed (remove '"' w) "a.c".toList := by
        decide +kernel
      exact hall w hw
    · have hm := g.headers.mem_of_get? hget
      rw [hitems, List.mem_singleton] at hm
      have hkv : kv = ("<y.h>".toList, "b.c".toList) := hm
      rw [hkv]
      decide +kernel
  obtain ⟨g', hg', hiff⟩ := includes_survive_iff (by decide +kernel) hg (by decide) rfl
    capitals_oneLine hclosed
  refine ⟨g, g', hg, hg', by decide +kernel, hiff.mpr ⟨fun name hname => ?_, by decide +kernel⟩⟩
  have hnames : includes (universalNewlines spacedText) =
      ["<linux/bpf.h>".toList, "\"net/x.h\"".toList, "<y.h>".toList] := by decide +kernel
  rw [hnames] at hname
  simp only [List.mem_cons, List.not_mem_nil, or_false] at hname
  obtain rfl | rfl | rfl := hname
  · exact ⟨_, Or.inl ⟨"<linux/bpf.h>".toList, by decide +kernel, rfl⟩, by decide +kernel⟩
  · exact ⟨_, Or.inl ⟨"\"net/x.h\"".toList, by decide +kernel, rfl⟩, by decide +kernel⟩
  · exact ⟨("<y.h>".toList, "b.c".toList), Or.inr ⟨hy, by decide +kernel⟩, by decide +kernel⟩

def commentedText : Str := "#include <string.h>     /* strerror */\n".toList

def commentedFiles : FS := filesOf [("a.c".toList, commentedText)]

/-- The end of the comment is taken as the operand. -/
theorem trailing_comment_included :
    ∃ g, addDependsOn commentedFiles .empty "a.c".toList = .ok g ∧
      includes commentedText = ["<string.h>".toList] ∧ g.headers.keys = ["*/".toList] ∧
      includes (writeHeaders capitals g.headers) = ["\"*/\"".toList] ∧
      ¬ IncludesSurvive capitals (universalNewlines commentedText) "a.c".toList g.headers := by
  have hg : ∃ g, addDependsOn commentedFiles .empty "a.c".toList = .ok g ∧
      g.headers.keys = ["*/".toList] ∧
      includes (writeHeaders capitals g.headers) = ["\"*/\"".toList] :=
    ⟨_, rfl, by decide +kernel, by decide +kernel⟩
  obtain ⟨g, hg, hkeys, hwritten⟩ := hg
  refine ⟨g, hg, by decide +kernel, hkeys, hwritten, fun hs => ?_⟩
  have hlost := hs.1 "<string.h>".toList (by decide +kernel)
  rw [hwritten, List.mem_singleton] at hlost
  exact absurd hlost (by decide)

end OpenedExtraction.Includes
