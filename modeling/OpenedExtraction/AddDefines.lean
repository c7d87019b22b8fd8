import OpenedExtraction.OrderedDict
import OpenedExtraction.CppLines
import OpenedExtraction.CppTables

/-! Copying the #define lines of a source file, each guarded by an #ifndef: addDefines, the
blocks that it writes, and how a C preprocessor reads them. -/
namespace OpenedExtraction.AddDefines
open OpenedExtraction.PyText OpenedExtraction.Cpp

def defineText : Str := "#define".toList

/-- What has been written and recorded so far, over all files. -/
structure Defines where
  names : OrderedDict Str Unit
  dups : OrderedDict Str Unit
  text : Str

def Defines.empty : Defines := ⟨.empty, .empty, []⟩

def Defines.write (d : Defines) (t : Str) : Defines := { d with text := d.text ++ t }

def Defines.record (d : Defines) (varName : Str) : Defines :=
  if varName ∈ d.names.keys then { d with dups := d.dups.set varName () }
  else { d with names := d.names.set varName () }

def beginText : Str := "//OPENED COMMENT BEGIN: From: ".toList
def startText : Str := " startLine: ".toList
def endText (single : Bool) : Str :=
  if single then "//OPENED COMMENT END : From: ".toList else "//OPENED COMMENT END: From: ".toList
def lastText : Str := " endLine: ".toList
def ifndefText : Str := "#ifndef ".toList
def openedText : Str := "//OPENED define ".toList
def begText : Str := " BEG".toList
def endifText : Str := "#endif ".toList
def endWord : Str := " END".toList

def beginComment (fullLine : Str) (lineCt : Nat) : Str :=
  beginText ++ fullLine ++ startText ++ str lineCt ++ ['\n']

def ifndefLine (varName : Str) : Str :=
  ifndefText ++ varName ++ openedText ++ varName ++ begText ++ ['\n']

def endifLine (varName : Str) : Str :=
  endifText ++ openedText ++ varName ++ endWord ++ ['\n'] ++ ['\n']

def endComment (single : Bool) (fullLine : Str) (lineCt : Nat) : Str :=
  endText single ++ fullLine ++ lastText ++ str lineCt ++ ['\n'] ++ ['\n']

structure LineState where
  acc : Defines
  multi : Bool
  varName : Str
  lineCt : Nat

/-- The loop body: a #define line, a line that continues one, or nothing to copy. -/
def addDefineLine (fullLine : Str) (s : LineState) (line : Str) : Except PyErr LineState :=
  match (rstrip line).getLast? with
  | none => .ok { s with lineCt := s.lineCt + 1 }
  | some contChar =>
    if contains defineText line then do
      let rest ← item (splitSep defineText line) 1
      let varName ← item (split rest) 0
      let acc := (s.acc.record varName).write
        (beginComment fullLine (s.lineCt + 1) ++ ifndefLine varName ++ line)
      if contChar = '\\' then .ok ⟨acc, true, varName, s.lineCt + 1⟩
      else .ok ⟨acc.write (endifLine varName ++ endComment true fullLine (s.lineCt + 1)), s.multi,
        varName, s.lineCt + 1⟩
    else if contChar = '\\' ∧ s.multi = true then
      .ok { s with acc := s.acc.write line, lineCt := s.lineCt + 1 }
    else if contChar ≠ '\\' ∧ s.multi = true then
      .ok { s with
        acc := s.acc.write
          (line ++ ['\n'] ++ endifLine s.varName ++ endComment false fullLine (s.lineCt + 1))
        multi := false
        lineCt := s.lineCt + 1 }
    else .ok { s with lineCt := s.lineCt + 1 }

/-- readlink stands for the output of readlink -f, which ends the program if it fails. -/
def addDefines (fs : FS) (readlink : Str → Option Str) (d : Defines) (cFile : Str) :
    Except PyErr Defines :=
  match readlink cFile with
  | none => .error .systemExit
  | some fullLine => do
    let lines ← openLines fs fullLine
    let s ← lines.foldlM (addDefineLine fullLine) ⟨d, false, [], 0⟩
    .ok s.acc

def defineKey (line : Str) : Option Str :=
  (splitSep defineText line)[1]?.bind fun rest => (split rest)[0]?

def continues (line : Str) : Bool := (rstrip line).getLast? = some '\\'

structure Block where
  key : Str
  first : Nat
  lines : List Str
  deriving DecidableEq, Repr

def Block.extend (b : Block) (line : Str) : Block := { b with lines := b.lines ++ [line] }

/- The blocks from line n on; the second argument is a block that is still continued. A blank line
   does not end it. There is no result if it is cut by another #define or by the end of the file,
   or if there is no word after #define. -/
def blocksFrom : Nat → Option Block → List Str → Option (List Block)
  | _, none, [] => some []
  | _, some _, [] => none
  | n, none, line :: lines =>
    if contains defineText line then
      (defineKey line).bind fun key =>
        if continues line then blocksFrom (n + 1) (some ⟨key, n, [line]⟩) lines
        else (blocksFrom (n + 1) none lines).map (⟨key, n, [line]⟩ :: ·)
    else blocksFrom (n + 1) none lines
  | n, some b, line :: lines =>
    if contains defineText line then none
    else if rstrip line = [] ∨ continues line = true then
      blocksFrom (n + 1) (some (b.extend line)) lines
    else (blocksFrom (n + 1) none lines).map (b.extend line :: ·)

def Block.single (b : Block) : Bool := b.lines.length = 1

/-- The loop passes over the blank lines. -/
def Block.copied (b : Block) : List Str :=
  b.lines.take 1 ++ (b.lines.drop 1).filter fun line => rstrip line ≠ []

/-- What is copied: the last of several lines gets a further line feed. -/
def Block.payload (b : Block) : Str := b.copied.flatten ++ (if b.single then [] else ['\n'])

def Block.text (fullLine : Str) (b : Block) : Str :=
  beginComment fullLine b.first ++ ifndefLine b.key ++ b.payload ++ endifLine b.key ++
    endComment b.single fullLine (b.first + b.lines.length - 1)

def addBlock (fullLine : Str) (d : Defines) (b : Block) : Defines :=
  (d.record b.key).write (b.text fullLine)

theorem extend_single {b : Block} (h : b.lines ≠ []) (line : Str) :
    (b.extend line).single = false := by
  have hlen := List.length_pos_iff.mpr h
  simp only [Block.single, Block.extend, List.length_append, List.length_singleton,
    decide_eq_false_iff_not]
  omega

theorem copied_extend {b : Block} (h : b.lines ≠ []) (line : Str) :
    (b.extend line).copied = b.copied ++ if rstrip line = [] then [] else [line] := by
  obtain ⟨l, ls, hl⟩ := List.exists_cons_of_ne_nil h
  by_cases hb : rstrip line = [] <;> simp [Block.copied, Block.extend, hl, hb]

theorem write_write (d : Defines) (t u : Str) : (d.write t).write u = d.write (t ++ u) := by
  simp [Defines.write]

theorem record_text (d : Defines) (key : Str) : (d.record key).text = d.text := by
  rw [Defines.record]
  split <;> rfl

theorem foldl_addBlock_text (fullLine : Str) (bs : List Block) (d : Defines) :
    (bs.foldl (addBlock fullLine) d).text = d.text ++ (bs.map (Block.text fullLine)).flatten := by
  induction bs generalizing d with
  | nil => simp
  | cons b bs ih =>
    rw [List.foldl_cons, ih]
    simp [addBlock, Defines.write, record_text]

theorem record_names (d : Defines) (x k : Str) :
    k ∈ (d.record x).names.keys ↔ k = x ∨ k ∈ d.names.keys := by
  rw [Defines.record]
  by_cases hx : x ∈ d.names.keys
  · rw [if_pos hx]
    refine ⟨Or.inr, fun h => ?_⟩
    cases h with
    | inl he => rw [he]; exact hx
    | inr hm => exact hm
  · rw [if_neg hx]
    exact d.names.mem_keys_set x k ()

theorem record_dups (d : Defines) (x k : Str) :
    k ∈ (d.record x).dups.keys ↔ (k = x ∧ x ∈ d.names.keys) ∨ k ∈ d.dups.keys := by
  rw [Defines.record]
  by_cases hx : x ∈ d.names.keys
  · rw [if_pos hx, d.dups.mem_keys_set x k ()]
    simp [hx]
  · rw [if_neg hx]
    simp [hx]

/-- Both tables hold what the names seen so far give. -/
structure Tally (ns : List Str) (d : Defines) : Prop where
  names : ∀ n, n ∈ d.names.keys ↔ 1 ≤ ns.count n
  dups : ∀ n, n ∈ d.dups.keys ↔ 2 ≤ ns.count n

theorem tally_empty : Tally [] .empty := by
  constructor
  · simp [Defines.empty]
  · simp [Defines.empty]

theorem Tally.write {ns : List Str} {d : Defines} (h : Tally ns d) (t : Str) :
    Tally ns (d.write t) := ⟨h.names, h.dups⟩

theorem Tally.record {ns : List Str} {d : Defines} (h : Tally ns d) (k : Str) :
    Tally (ns ++ [k]) (d.record k) := by
  have hcount : ∀ n, (ns ++ [k]).count n = ns.count n + if k = n then 1 else 0 := by
    intro n
    rw [List.count_append, List.count_singleton]
    simp
  constructor
  · intro n
    rw [record_names, h.names n, hcount]
    by_cases hk : k = n
    · simp [hk]
    · simp [hk, Ne.symm hk]
  · intro n
    rw [record_dups, h.dups n, h.names k, hcount]
    by_cases hk : k = n
    · rw [hk, if_pos rfl, and_iff_right rfl]
      omega
    · simp [hk, Ne.symm hk]

theorem rstrip_nil_of_define {line : Str} (h : contains defineText line = true) :
    rstrip line ≠ [] := by
  have hm : '#' ∈ line := ((contains_iff _ _).mp h).subset (by decide)
  intro hr
  have hs := (rstrip_eq_nil_iff line).mp hr '#' hm
  revert hs
  decide

theorem defineKey_of_ok {fullLine line : Str} {s s' : LineState}
    (hd : contains defineText line = true) (h : addDefineLine fullLine s line = .ok s') :
    ∃ key, defineKey line = some key := by
  cases hl : (rstrip line).getLast? with
  | none => exact absurd (List.getLast?_eq_none_iff.mp hl) (rstrip_nil_of_define hd)
  | some c =>
    simp only [addDefineLine, hl, hd, if_true, bind_eq_ok, item_ok_iff] at h
    obtain ⟨rest, hrest, key, hkey, _⟩ := h
    exact ⟨key, by simp [defineKey, hrest, hkey]⟩

section Loop
variable {fullLine : Str} {s : LineState} {line : Str}

theorem addDefineLine_other (hd : contains defineText line = false) (hm : s.multi = false) :
    addDefineLine fullLine s line = .ok { s with lineCt := s.lineCt + 1 } := by
  cases hl : (rstrip line).getLast? with
  | none => simp [addDefineLine, hl]
  | some c => simp [addDefineLine, hl, hd, hm]

theorem addDefineLine_define {key : Str} (hd : contains defineText line = true)
    (hk : defineKey line = some key) :
    addDefineLine fullLine s line =
      if continues line then
        .ok ⟨(s.acc.record key).write (beginComment fullLine (s.lineCt + 1) ++ ifndefLine key ++
          line), true, key, s.lineCt + 1⟩
      else .ok ⟨addBlock fullLine s.acc ⟨key, s.lineCt + 1, [line]⟩, s.multi, key, s.lineCt + 1⟩ := by
  rw [defineKey, Option.bind_eq_some_iff] at hk
  obtain ⟨rest, hrest, hkey⟩ := hk
  cases hl : (rstrip line).getLast? with
  | none => exact absurd (List.getLast?_eq_none_iff.mp hl) (rstrip_nil_of_define hd)
  | some c =>
    by_cases hc : c = '\\'
    · simp [addDefineLine, hl, hd, item_ok_iff.mpr hrest, item_ok_iff.mpr hkey, continues, hc, bind,
        Except.bind]
    · simp [addDefineLine, hl, hd, item_ok_iff.mpr hrest, item_ok_iff.mpr hkey, continues, hc, bind,
        Except.bind, addBlock, Block.text, Block.payload, Block.copied, Block.single, write_write]

theorem addDefineLine_blank (hb : rstrip line = []) :
    addDefineLine fullLine s line = .ok { s with lineCt := s.lineCt + 1 } := by
  simp [addDefineLine, hb]

theorem addDefineLine_continued (hd : contains defineText line = false) (hb : rstrip line ≠ [])
    (hm : s.multi = true) :
    addDefineLine fullLine s line =
      if continues line then .ok { s with acc := s.acc.write line, lineCt := s.lineCt + 1 }
      else .ok { s with
        acc := s.acc.write
          (line ++ ['\n'] ++ endifLine s.varName ++ endComment false fullLine (s.lineCt + 1))
        multi := false
        lineCt := s.lineCt + 1 } := by
  cases hl : (rstrip line).getLast? with
  | none => exact absurd (List.getLast?_eq_none_iff.mp hl) hb
  | some c =>
    by_cases hc : c = '\\'
    · simp [addDefineLine, hl, hd, hm, continues, hc]
    · simp [addDefineLine, hl, hd, hm, continues, hc]

/-- The state of the loop inside a block: its lines so far have been written. -/
structure Pending (fullLine : Str) (d : Defines) (b : Block) (s : LineState) : Prop where
  multi : s.multi = true
  varName : s.varName = b.key
  lines : b.lines ≠ []
  lineCt : s.lineCt + 1 = b.first + b.lines.length
  acc : s.acc = (d.record b.key).write
    (beginComment fullLine b.first ++ ifndefLine b.key ++ b.copied.flatten)

theorem Pending.next {d : Defines} {b : Block} (h : Pending fullLine d b s)
    (hd : contains defineText line = false) (hc : rstrip line = [] ∨ continues line = true) :
    ∃ s', addDefineLine fullLine s line = .ok s' ∧ Pending fullLine d (b.extend line) s' ∧
      s'.lineCt = s.lineCt + 1 := by
  have hcount : s.lineCt + 1 + 1 = (b.extend line).first + (b.extend line).lines.length := by
    have hl := h.lineCt
    simp only [Block.extend, List.length_append, List.length_singleton]
    omega
  by_cases hb : rstrip line = []
  · refine ⟨_, addDefineLine_blank hb, ?_, rfl⟩
    refine ⟨h.multi, h.varName, by simp [Block.extend], hcount, ?_⟩
    rw [copied_extend h.lines line, if_pos hb]
    simp [h.acc, Block.extend]
  · rw [addDefineLine_continued hd hb h.multi, if_pos (hc.resolve_left hb)]
    refine ⟨_, rfl, ?_, rfl⟩
    refine ⟨h.multi, h.varName, by simp [Block.extend], hcount, ?_⟩
    rw [copied_extend h.lines line, if_neg hb]
    simp [h.acc, write_write, Block.extend]

theorem Pending.last {d : Defines} {b : Block} (h : Pending fullLine d b s)
    (hd : contains defineText line = false) (hb : rstrip line ≠ []) (hc : continues line = false) :
    ∃ s', addDefineLine fullLine s line = .ok s' ∧ s'.multi = false ∧
      s'.acc = addBlock fullLine d (b.extend line) ∧ s'.lineCt = s.lineCt + 1 := by
  refine ⟨_, by rw [addDefineLine_continued hd hb h.multi, if_neg (by simp [hc])], rfl, ?_, rfl⟩
  have hlast : (b.extend line).first + (b.extend line).lines.length - 1 = s.lineCt + 1 := by
    have hl := h.lineCt
    simp only [Block.extend, List.length_append, List.length_singleton]
    omega
  rw [addBlock, Block.text, Block.payload, extend_single h.lines line, hlast,
    copied_extend h.lines line, if_neg hb]
  simp [h.acc, h.varName, write_write, Block.extend]

end Loop

/-- On lines that fall into blocks the loop writes one block after the other. -/
theorem foldlM_blocks (fullLine : Str) (lines : List Str) :
    (∀ (s : LineState) (bs : List Block), s.multi = false →
      blocksFrom (s.lineCt + 1) none lines = some bs →
      ∃ s', lines.foldlM (addDefineLine fullLine) s = .ok s' ∧
        s'.acc = bs.foldl (addBlock fullLine) s.acc) ∧
    ∀ (s : LineState) (d : Defines) (b : Block) (bs : List Block), Pending fullLine d b s →
      blocksFrom (s.lineCt + 1) (some b) lines = some bs →
      ∃ s', lines.foldlM (addDefineLine fullLine) s = .ok s' ∧
        s'.acc = bs.foldl (addBlock fullLine) d := by
  induction lines with
  | nil =>
    refine ⟨fun s bs _ h => ?_, fun s d b bs _ h => by simp [blocksFrom] at h⟩
    simp only [blocksFrom, Option.some.injEq] at h
    exact ⟨s, rfl, by rw [← h]; rfl⟩
  | cons line lines ih =>
    obtain ⟨ihNone, ihSome⟩ := ih
    constructor
    · intro s bs hm h
      cases hd : contains defineText line with
      | false =>
        simp only [blocksFrom, hd, Bool.false_eq_true, if_false] at h
        rw [List.foldlM_cons, addDefineLine_other hd hm]
        exact ihNone _ bs hm h
      | true =>
        simp only [blocksFrom, hd, if_true, Option.bind_eq_some_iff] at h
        obtain ⟨key, hk, h⟩ := h
        rw [List.foldlM_cons, addDefineLine_define hd hk]
        cases hc : continues line with
        | true =>
          simp only [hc, if_true] at h ⊢
          exact ihSome _ s.acc _ bs ⟨rfl, rfl, by simp, rfl, by simp [Block.copied]⟩ h
        | false =>
          simp only [hc, Bool.false_eq_true, if_false, Option.map_eq_some_iff] at h ⊢
          obtain ⟨bs', h', rfl⟩ := h
          exact ihNone ⟨_, s.multi, key, s.lineCt + 1⟩ bs' hm h'
    · intro s d b bs hp h
      rw [blocksFrom] at h
      split at h
      · cases h
      · next hd =>
        rw [Bool.not_eq_true] at hd
        split at h
        · next hc =>
          obtain ⟨s', hs', hp', hct⟩ := hp.next hd hc
          rw [List.foldlM_cons, hs']
          exact ihSome s' d _ bs hp' (by rw [hct]; exact h)
        · next hc =>
          rw [not_or, Bool.not_eq_true] at hc
          rw [Option.map_eq_some_iff] at h
          obtain ⟨bs', h', rfl⟩ := h
          obtain ⟨s', hs', hm', hacc, hct⟩ := hp.last hd hc.1 hc.2
          rw [List.foldlM_cons, hs', List.foldl_cons, ← hacc]
          exact ihNone s' bs' hm' (by rw [hct]; exact h')

theorem str_ne_nil (n : Int) : str n ≠ [] := by
  cases n with
  | ofNat n => exact Nat.toDigits_ne_nil
  | negSucc n => exact List.cons_ne_nil _ _

theorem getLast?_append_str (t : Str) (n : Int) : (t ++ str n).getLast? ≠ some '\\' := by
  intro h
  rw [List.getLast?_append_of_ne_nil t (str_ne_nil n)] at h
  exact not_mem_str n '\\' (by decide) (by decide) (List.mem_of_getLast? h)

theorem reads_location {head tail mid file : Str} (hh : head = '/' :: '/' :: tail)
    (ht : '\n' ∉ tail) (hm : '\n' ∉ mid) (hf : '\n' ∉ file) (n : Nat) :
    reads (head ++ file ++ mid ++ str n ++ ['\n']) = some [] := by
  have hs : '\n' ∉ str (n : Int) := not_mem_str n '\n' (by decide) (by decide)
  have hread := reads_lineComment [] (tail ++ file ++ mid ++ str n) (by simp)
    (by simp [ht, hm, hf, hs]) (getLast?_append_str ('/' :: (tail ++ file ++ mid)) n)
  have hnone : directive ([] ++ [' ']) = none := by decide
  rw [hnone] at hread
  simpa [hh] using hread

theorem reads_beginComment {fullLine : Str} (h : '\n' ∉ fullLine) (n : Nat) :
    reads (beginComment fullLine n) = some [] := by
  have hb : beginText = '/' :: '/' :: beginText.drop 2 := by decide +kernel
  exact reads_location hb (by decide +kernel) (by decide +kernel) h n

theorem reads_endComment (single : Bool) {fullLine : Str} (h : '\n' ∉ fullLine) (n : Nat) :
    reads (endComment single fullLine n) = some [] := by
  have hb : endText single = '/' :: '/' :: (endText single).drop 2 := by
    cases single <;> decide +kernel
  have hn : '\n' ∉ (endText single).drop 2 := by cases single <;> decide +kernel
  exact reads_append (reads_location hb hn (by decide +kernel) h n) reads_newline

theorem reads_endifLine {key : Str} (h : '\n' ∉ key) :
    reads (endifLine key) = some [.endif] := by
  have hcut : endifLine key = (endifText ++ '/' :: '/' :: (openedText.drop 2 ++ key ++ endWord) ++
      ['\n']) ++ ['\n'] := by
    have ho : openedText = '/' :: '/' :: openedText.drop 2 := by decide +kernel
    rw [endifLine]
    conv_lhs => rw [ho]
    simp
  have ht : '\n' ∉ openedText.drop 2 ++ key ++ endWord := by
    have h1 : '\n' ∉ openedText.drop 2 := by decide +kernel
    have h2 : '\n' ∉ endWord := by decide +kernel
    simp [h1, h2, h]
  have hlast : ('/' :: (openedText.drop 2 ++ key ++ endWord)).getLast? ≠ some '\\' := by
    have he : endWord.getLast? = some 'D' := by decide +kernel
    rw [List.getLast?_cons, List.getLast?_append, he]
    simp
  have hread := reads_lineComment endifText _ (List.all_eq_true.mp (by decide +kernel)) ht hlast
  have hd : directive (endifText ++ [' ']) = some .endif := by decide +kernel
  rw [hd] at hread
  rw [hcut]
  exact reads_append hread reads_newline

/-- The macro that an #ifndef with the key tests: its leading identifier, after comments. -/
def macroOf (key : Str) : Str := lead ((codeText key).dropWhile blank)

/-- A block that stands in a guard of its own: the line that opens it and the copied lines leave no
comment and no line open, the guard tests the macro of the key, and the copied lines say nothing
about other macros. -/
def Block.Closed (b : Block) : Prop :=
  reads (ifndefLine b.key) = some [.ifndef (macroOf b.key)] ∧
    ∃ ds, reads b.payload = some ds ∧ ∀ d ∈ ds, About (macroOf b.key) d

def Block.directives (b : Block) : List Directive := (reads b.payload).getD []

theorem Block.Closed.directives_eq {b : Block} (h : b.Closed) :
    reads b.payload = some b.directives ∧ ∀ d ∈ b.directives, About (macroOf b.key) d := by
  obtain ⟨_, ds, hr, hd⟩ := h
  have he : b.directives = ds := by simp [Block.directives, hr]
  rw [he]
  exact ⟨hr, hd⟩

theorem reads_block {b : Block} (h : b.Closed) (hk : '\n' ∉ b.key) {fullLine : Str}
    (hf : '\n' ∉ fullLine) :
    reads (b.text fullLine) = some (.ifndef (macroOf b.key) :: (b.directives ++ [.endif])) := by
  have h1 := reads_append (reads_beginComment hf b.first) h.1
  have h2 := reads_append h1 h.directives_eq.1
  have h3 := reads_append h2 (reads_endifLine hk)
  have h4 := reads_append h3 (reads_endComment b.single hf (b.first + b.lines.length - 1))
  simpa [Block.text] using h4

end OpenedExtraction.AddDefines
