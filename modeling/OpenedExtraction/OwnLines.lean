import OpenedExtraction.Pieces
import OpenedExtraction.Headers
import OpenedExtraction.AddDefines
import OpenedExtraction.FunctionTable

/-! The extracted file as the pieces that its three writers append: the #define blocks, the
header section and the functions. Which inputs put every directive of the tool on its own line. -/
namespace OpenedExtraction.OwnLines
open OpenedExtraction.PyText OpenedExtraction.Pieces OpenedExtraction.AddDefines
open OpenedExtraction.ExtractAndDump OpenedExtraction.CallGraph OpenedExtraction.FunctionTable
open OpenedExtraction.Headers OpenedExtraction.PreprocessorMap

/-- What the line loop of addDefines writes for one line. -/
def linePieces (fullLine : Str) (s : LineState) (line : Str) : List Piece :=
  match (rstrip line).getLast? with
  | none => []
  | some contChar =>
    if contains defineText line then
      let varName := (defineKey line).getD []
      let first := [plain (beginComment fullLine (s.lineCt + 1)), directive (ifndefLine varName),
        plain line]
      if contChar = '\\' then first
      else first ++ [directive (endifLine varName), plain (endComment true fullLine (s.lineCt + 1))]
    else if contChar = '\\' ∧ s.multi = true then [plain line]
    else if contChar ≠ '\\' ∧ s.multi = true then
      [plain (line ++ ['\n']), directive (endifLine s.varName),
        plain (endComment false fullLine (s.lineCt + 1))]
    else []

def linesPieces (fullLine : Str) : LineState → List Str → List Piece
  | _, [] => []
  | s, line :: lines => linePieces fullLine s line ++
    match addDefineLine fullLine s line with
    | .ok s' => linesPieces fullLine s' lines
    | .error _ => []

def sourceOf (fs : FS) (readlink : Str → Option Str) (cFile : Str) : List Str :=
  match readlink cFile with
  | none => []
  | some fullLine =>
    match fs fullLine with
    | .text t => readlines (universalNewlines t)
    | _ => []

def definePieces (fs : FS) (readlink : Str → Option Str) : Defines → List Str → List Piece
  | _, [] => []
  | d, cFile :: cFiles =>
    linesPieces ((readlink cFile).getD []) ⟨d, false, [], 0⟩ (sourceOf fs readlink cFile) ++
      match addDefines fs readlink d cFile with
      | .ok d' => definePieces fs readlink d' cFiles
      | .error _ => []

def next (multi : Bool) (line : Str) : Bool :=
  if rstrip line = [] then multi
  else if contains defineText line then continues line || multi
  else continues line && multi

def copied (multi : Bool) (line : Str) : Bool :=
  contains defineText line || (multi && decide (rstrip line ≠ []))

section Line
variable {fullLine line : Str} {s s' : LineState}

theorem getLast_of_ne_nil (hb : rstrip line ≠ []) :
    ∃ c, (rstrip line).getLast? = some c ∧ continues line = decide (c = '\\') := by
  refine ⟨_, List.getLast?_eq_some_getLast hb, ?_⟩
  simp [continues, List.getLast?_eq_some_getLast hb]

theorem linePieces_define {key : Str} (hd : contains defineText line = true)
    (hk : defineKey line = some key) :
    linePieces fullLine s line = [plain (beginComment fullLine (s.lineCt + 1)),
      directive (ifndefLine key), plain line] ++ if continues line then [] else
        [directive (endifLine key), plain (endComment true fullLine (s.lineCt + 1))] := by
  obtain ⟨c, hl, hc⟩ := getLast_of_ne_nil (rstrip_nil_of_define hd)
  by_cases h : c = '\\' <;> simp [linePieces, hl, hd, hk, hc, h]

theorem linePieces_continued (hd : contains defineText line = false) (hb : rstrip line ≠ [])
    (hm : s.multi = true) :
    linePieces fullLine s line = if continues line then [plain line] else
      [plain (line ++ ['\n']), directive (endifLine s.varName),
        plain (endComment false fullLine (s.lineCt + 1))] := by
  obtain ⟨c, hl, hc⟩ := getLast_of_ne_nil hb
  by_cases h : c = '\\' <;> simp [linePieces, hl, hd, hm, hc, h]

theorem linePieces_other (h : copied s.multi line = false) : linePieces fullLine s line = [] := by
  rw [copied, Bool.or_eq_false_iff, Bool.and_eq_false_iff] at h
  cases hl : (rstrip line).getLast? with
  | none => simp [linePieces, hl]
  | some c =>
    have hm : s.multi = false := h.2.resolve_right (by
      rw [decide_eq_false_iff_not, not_not]
      exact fun hb => by simp [hb] at hl)
    simp [linePieces, hl, h.1, hm]

theorem addDefineLine_skip (h : copied s.multi line = false) :
    addDefineLine fullLine s line = .ok { s with lineCt := s.lineCt + 1 } := by
  rw [copied, Bool.or_eq_false_iff, Bool.and_eq_false_iff] at h
  cases h.2 with
  | inl hm => exact addDefineLine_other h.1 hm
  | inr hb =>
    rw [decide_eq_false_iff_not, not_not] at hb
    simp [addDefineLine, hb]

theorem addDefineLine_cases (h : addDefineLine fullLine s line = .ok s') :
    (copied s.multi line = false ∧ s' = { s with lineCt := s.lineCt + 1 }) ∨
    (copied s.multi line = true ∧ contains defineText line = true ∧
      ∃ key, defineKey line = some key ∧ s' =
        if continues line then ⟨(s.acc.record key).write (beginComment fullLine (s.lineCt + 1) ++
          ifndefLine key ++ line), true, key, s.lineCt + 1⟩
        else ⟨addBlock fullLine s.acc ⟨key, s.lineCt + 1, [line]⟩, s.multi, key, s.lineCt + 1⟩) ∨
    (copied s.multi line = true ∧ contains defineText line = false ∧ rstrip line ≠ [] ∧
      s.multi = true ∧ s' =
        if continues line then { s with acc := s.acc.write line, lineCt := s.lineCt + 1 }
        else { s with
          acc := s.acc.write (line ++ ['\n'] ++ endifLine s.varName ++
            endComment false fullLine (s.lineCt + 1))
          multi := false
          lineCt := s.lineCt + 1 }) := by
  cases hcopy : copied s.multi line with
  | false =>
    rw [addDefineLine_skip hcopy, Except.ok.injEq] at h
    exact Or.inl ⟨rfl, h.symm⟩
  | true =>
    cases hd : contains defineText line with
    | true =>
      obtain ⟨key, hk⟩ := defineKey_of_ok hd h
      rw [addDefineLine_define hd hk, ← apply_ite Except.ok, Except.ok.injEq] at h
      exact Or.inr (Or.inl ⟨rfl, rfl, key, hk, h.symm⟩)
    | false =>
      simp only [copied, hd, Bool.false_or, Bool.and_eq_true, decide_eq_true_eq] at hcopy
      rw [addDefineLine_continued hd hcopy.2 hcopy.1, ← apply_ite Except.ok, Except.ok.injEq] at h
      exact Or.inr (Or.inr ⟨rfl, rfl, hcopy.2, hcopy.1, h.symm⟩)

theorem linePieces_text (h : addDefineLine fullLine s line = .ok s') :
    s'.acc.text = s.acc.text ++ textOf (linePieces fullLine s line) := by
  obtain ⟨hcopy, rfl⟩ | ⟨_, hd, key, hk, rfl⟩ | ⟨_, hd, hb, hm, rfl⟩ := addDefineLine_cases h
  · rw [linePieces_other hcopy]
    simp
  · rw [linePieces_define hd hk]
    cases hc : continues line with
    | true => simp [Defines.write, record_text]
    | false =>
      simp [addBlock, Block.text, Block.payload, Block.copied, Block.single,
        Defines.write, record_text]
  · rw [linePieces_continued hd hb hm]
    cases hc : continues line with
    | true => simp [Defines.write]
    | false => simp [Defines.write]

theorem addDefineLine_multi (h : addDefineLine fullLine s line = .ok s') :
    s'.multi = next s.multi line := by
  obtain ⟨hcopy, rfl⟩ | ⟨_, hd, key, _, rfl⟩ | ⟨_, hd, hb, hm, rfl⟩ := addDefineLine_cases h
  · rw [copied, Bool.or_eq_false_iff, Bool.and_eq_false_iff] at hcopy
    rw [next, hcopy.1]
    cases hcopy.2 with
    | inl hm => simp [hm]
    | inr hb => simp [of_decide_eq_false hb]
  · have hb := rstrip_nil_of_define hd
    cases hc : continues line with
    | true => simp [next, hb, hd, hc]
    | false => simp [next, hb, hd, hc]
  · cases hc : continues line with
    | true => simp [next, hb, hd, hc]
    | false => simp [next, hb, hd, hc]

theorem beginComment_newline (t : Str) (n : Nat) : EndsLine (t ++ beginComment fullLine n) := by
  rw [beginComment, ← List.append_assoc]
  exact endsLine_newline _

theorem endComment_newline (t : Str) (single : Bool) (n : Nat) :
    EndsLine (t ++ endComment single fullLine n) := by
  rw [endComment, ← List.append_assoc]
  exact endsLine_newline _

theorem ownLine_opening (fullLine key : Str) (n : Nat) (t : Str) :
    OwnLineFrom t [plain (beginComment fullLine n), directive (ifndefLine key)] :=
  ⟨Bool.noConfusion, fun _ => beginComment_newline t n, trivial⟩

theorem ne_nil_of_copied (h : copied s.multi line = true) : line ≠ [] := by
  rintro rfl
  revert h
  simp [copied, show contains defineText [] = false by decide +kernel, show rstrip [] = [] from rfl]

/-- A line is not copied; or it is copied and continued; or an #endif comes after it, directly if
it is a #define line and after a further line feed if not. -/
theorem linePieces_cases (h : addDefineLine fullLine s line = .ok s') :
    (copied s.multi line = false ∧ linePieces fullLine s line = []) ∨
    (copied s.multi line = true ∧ continues line = true ∧ ∃ pre,
      (∀ t, OwnLineFrom t pre) ∧ linePieces fullLine s line = pre ++ [plain line]) ∨
    (copied s.multi line = true ∧ continues line = false ∧ ∃ pre key single,
      (∀ t, OwnLineFrom t pre) ∧ linePieces fullLine s line = pre ++
        [plain (line ++ if contains defineText line then [] else ['\n']), directive (endifLine key),
          plain (endComment single fullLine (s.lineCt + 1))]) := by
  obtain ⟨hcopy, _⟩ | ⟨hcopy, hd, key, hk, _⟩ | ⟨hcopy, hd, hb, hm, _⟩ := addDefineLine_cases h
  · exact Or.inl ⟨hcopy, linePieces_other hcopy⟩
  · rw [linePieces_define hd hk, hd]
    cases hc : continues line with
    | true =>
      exact Or.inr (Or.inl ⟨hcopy, rfl, _, ownLine_opening fullLine key (s.lineCt + 1), rfl⟩)
    | false =>
      refine Or.inr (Or.inr ⟨hcopy, rfl, _, key, true,
        ownLine_opening fullLine key (s.lineCt + 1), ?_⟩)
      rw [if_pos rfl, List.append_nil]
      rfl
  · rw [linePieces_continued hd hb hm, hd]
    cases hc : continues line with
    | true => exact Or.inr (Or.inl ⟨hcopy, rfl, [], fun _ => trivial, rfl⟩)
    | false =>
      exact Or.inr (Or.inr ⟨hcopy, rfl, [], s.varName, false, fun _ => trivial, rfl⟩)

theorem linePieces_ownLine (h : addDefineLine fullLine s line = .ok s') (t : Str) :
    OwnLineFrom t (linePieces fullLine s line) ↔
      (contains defineText line = true → continues line = false → EndsLine line) := by
  obtain ⟨hcopy, hp⟩ | ⟨_, hc, pre, hpre, hp⟩ | ⟨hcopy, hc, pre, key, single, hpre, hp⟩ :=
    linePieces_cases h
  · rw [copied, Bool.or_eq_false_iff] at hcopy
    rw [hp, hcopy.1]
    exact iff_of_true trivial Bool.noConfusion
  · rw [hp, ownLineFrom_append, hc]
    exact iff_of_true ⟨hpre t, Bool.noConfusion, trivial⟩ fun _ => Bool.noConfusion
  · rw [hp, ownLineFrom_append, and_iff_right (hpre t)]
    simp only [OwnLineFrom, plain_directive, directive_directive, plain_text, Bool.false_eq_true,
      IsEmpty.forall_iff, true_and, forall_const, and_true]
    cases hd : contains defineText line with
    | true =>
      rw [if_pos rfl, List.append_nil, endsLine_append_iff _ (ne_nil_of_copied hcopy)]
      simp [hc]
    | false =>
      rw [if_neg (by simp), ← List.append_assoc]
      exact iff_of_true (endsLine_newline _) Bool.noConfusion

theorem linePieces_endsLine (h : addDefineLine fullLine s line = .ok s') (t : Str) :
    EndsLine (t ++ textOf (linePieces fullLine s line)) ↔
      if copied s.multi line then continues line = true → EndsLine line else EndsLine t := by
  obtain ⟨hcopy, hp⟩ | ⟨hcopy, hc, pre, _, hp⟩ | ⟨hcopy, hc, pre, key, single, _, hp⟩ :=
    linePieces_cases h
  · rw [hp, hcopy, if_neg (by simp), textOf_nil, List.append_nil]
  · rw [hp, hcopy, if_pos rfl, textOf_append, textOf_cons, textOf_nil, List.append_nil,
      ← List.append_assoc]
    rw [show (plain line).text = line from rfl, endsLine_append_iff _ (ne_nil_of_copied hcopy)]
    simp [hc]
  · rw [hp, hcopy, if_pos rfl, hc]
    refine iff_of_true ?_ Bool.noConfusion
    simp only [textOf_append, textOf_cons, textOf_nil, List.append_nil, ← List.append_assoc]
    exact endComment_newline _ single _

end Line

def inMacro (multi : Bool) (lines : List Str) : Bool := lines.foldl next multi

def writes : Bool → List Str → Bool
  | _, [] => false
  | multi, line :: lines => copied multi line || writes (next multi line) lines

/-- The file ends, without a line feed, in a #define line that is not continued. -/
def GluedDefine (lines : List Str) : Prop :=
  ∃ l ∈ lines.getLast?, ¬ EndsLine l ∧ contains defineText l = true ∧ continues l = false

/-- The file ends, without a line feed, in a continued line of a macro. -/
def OpenMacro (multi : Bool) (lines : List Str) : Prop :=
  ∃ l ∈ lines.getLast?, ¬ EndsLine l ∧ continues l = true ∧
    copied (inMacro multi lines.dropLast) l = true

section File
variable {fullLine : Str} {lines : List Str} {s s' : LineState}

theorem endsLine_of_isLine {l : Str} (h : IsLine l) : EndsLine l := by
  obtain ⟨b, rfl, _⟩ := h
  exact endsLine_newline b

theorem linesPieces_cons {line : Str} {s₁ : LineState}
    (h : addDefineLine fullLine s line = .ok s₁) :
    linesPieces fullLine s (line :: lines) =
      linePieces fullLine s line ++ linesPieces fullLine s₁ lines := by
  rw [linesPieces, h]

theorem linesPieces_text (h : lines.foldlM (addDefineLine fullLine) s = .ok s') :
    s'.acc.text = s.acc.text ++ textOf (linesPieces fullLine s lines) := by
  induction lines generalizing s with
  | nil =>
    rw [foldlM_nil_inv h]
    simp [linesPieces]
  | cons line lines ih =>
    obtain ⟨s₁, h₁, h⟩ := foldlM_cons_inv h
    rw [linesPieces_cons h₁, ih h, linePieces_text h₁, textOf_append, List.append_assoc]

theorem gluedDefine_singleton (line : Str) : GluedDefine [line] ↔
    ¬ EndsLine line ∧ contains defineText line = true ∧ continues line = false := by
  simp [GluedDefine]

theorem openMacro_singleton (multi : Bool) (line : Str) : OpenMacro multi [line] ↔
    ¬ EndsLine line ∧ continues line = true ∧ copied multi line = true := by
  simp [OpenMacro, inMacro]

theorem openMacro_cons (multi : Bool) (line l : Str) (lines : List Str) :
    OpenMacro multi (line :: l :: lines) ↔ OpenMacro (next multi line) (l :: lines) := by
  rw [OpenMacro, OpenMacro, List.getLast?_cons_cons, List.dropLast_cons_cons, inMacro,
    List.foldl_cons]
  rfl

theorem linesPieces_ownLine (hr : Rows lines)
    (h : lines.foldlM (addDefineLine fullLine) s = .ok s') (t : Str) :
    OwnLineFrom t (linesPieces fullLine s lines) ↔ ¬ GluedDefine lines := by
  induction lines generalizing s t with
  | nil => simp [linesPieces, OwnLineFrom, GluedDefine]
  | cons line lines ih =>
    obtain ⟨s₁, h₁, h⟩ := foldlM_cons_inv h
    rw [linesPieces_cons h₁, ownLineFrom_append, linePieces_ownLine h₁, ih hr.tail h]
    cases lines with
    | nil =>
      rw [gluedDefine_singleton, and_iff_left (by simp [GluedDefine]), not_and, not_and]
      exact ⟨fun h hne hd hc => hne (h hd hc), fun h hd hc => by_contra fun hne => h hne hd hc⟩
    | cons l lines =>
      have hends := endsLine_of_isLine (hr.isLine (List.mem_cons_self (a := l)))
      rw [and_iff_right fun _ _ => hends, GluedDefine, GluedDefine, List.getLast?_cons_cons]

/-- The text after the lines ends where a line ends if it did before and nothing is copied, or if
something is copied and no macro is left open. -/
theorem linesPieces_endsLine (hr : Rows lines)
    (h : lines.foldlM (addDefineLine fullLine) s = .ok s') (t : Str) :
    EndsLine (t ++ textOf (linesPieces fullLine s lines)) ↔
      (writes s.multi lines = false → EndsLine t) ∧ ¬ OpenMacro s.multi lines := by
  induction lines generalizing s t with
  | nil => simp [linesPieces, writes, OpenMacro]
  | cons line lines ih =>
    obtain ⟨s₁, h₁, h⟩ := foldlM_cons_inv h
    have hi := ih hr.tail h (t ++ textOf (linePieces fullLine s line))
    rw [linesPieces_cons h₁, textOf_append, ← List.append_assoc, hi, linePieces_endsLine h₁,
      addDefineLine_multi h₁, writes, Bool.or_eq_false_iff]
    cases lines with
    | nil =>
      rw [openMacro_singleton, and_iff_left (by simp [OpenMacro])]
      cases hcopy : copied s.multi line with
      | false => simp [writes]
      | true => simp [writes, not_imp_comm]
    | cons l lines =>
      have hends := endsLine_of_isLine (hr.isLine (List.mem_cons_self (a := l)))
      rw [openMacro_cons]
      cases hcopy : copied s.multi line with
      | false => simp
      | true => simp [hends]

end File

def mentionsDefine (lines : List Str) : Bool := lines.any fun l => contains defineText l

/-- The last file from which anything is copied leaves a macro open. -/
def OpenDefines (files : List (List Str)) : Prop :=
  ∃ lines ∈ (files.filter mentionsDefine).getLast?, OpenMacro false lines

theorem writes_false (lines : List Str) : writes false lines = mentionsDefine lines := by
  induction lines with
  | nil => rfl
  | cons line lines ih =>
    rw [writes, mentionsDefine, List.any_cons]
    cases hd : contains defineText line with
    | true => simp [copied, hd]
    | false =>
      have hnext : next false line = false := by simp [next, hd]
      rw [hnext, ih, copied, hd]
      rfl

theorem inMacro_false {lines : List Str} (h : mentionsDefine lines = false) :
    inMacro false lines = false := by
  induction lines with
  | nil => rfl
  | cons line lines ih =>
    rw [mentionsDefine, List.any_cons, Bool.or_eq_false_iff] at h
    have hnext : next false line = false := by simp [next, h.1]
    rw [inMacro, List.foldl_cons, hnext]
    exact ih h.2

theorem OpenMacro.mentions {lines : List Str} (h : OpenMacro false lines) :
    mentionsDefine lines = true := by
  obtain ⟨l, hl, _, _, hcopy⟩ := h
  by_contra hno
  rw [Bool.not_eq_true] at hno
  have hall : ∀ x ∈ lines, contains defineText x = false := by
    simpa [mentionsDefine] using hno
  have hrest : mentionsDefine lines.dropLast = false := by
    simpa [mentionsDefine] using fun x hx => hall x (List.mem_of_mem_dropLast hx)
  rw [copied, inMacro_false hrest, hall l (List.mem_of_getLast? hl)] at hcopy
  cases hcopy

theorem openDefines_cons (lines : List Str) (files : List (List Str)) :
    OpenDefines (lines :: files) ↔ OpenDefines files ∨
      (files.filter mentionsDefine = [] ∧ mentionsDefine lines = true ∧ OpenMacro false lines) := by
  rw [OpenDefines, OpenDefines]
  cases hm : mentionsDefine lines with
  | false => simp [hm]
  | true =>
    rw [List.filter_cons_of_pos hm]
    cases hf : files.filter mentionsDefine with
    | nil => simp
    | cons f rest => simp [List.getLast?_cons_cons]

section Calls
variable {fs : FS} {readlink : Str → Option Str}

theorem addDefines_ok {d d' : Defines} {cFile : Str} (h : addDefines fs readlink d cFile = .ok d') :
    ∃ s, (sourceOf fs readlink cFile).foldlM (addDefineLine ((readlink cFile).getD []))
        ⟨d, false, [], 0⟩ = .ok s ∧ s.acc = d' ∧ Rows (sourceOf fs readlink cFile) := by
  rw [addDefines] at h
  cases hl : readlink cFile with
  | none => simp [hl] at h
  | some fullLine =>
    rw [hl] at h
    simp only [bind_eq_ok] at h
    obtain ⟨lines, hlines, s, hs, he⟩ := h
    cases hf : fs fullLine with
    | text t =>
      rw [openLines, hf, Except.ok.injEq] at hlines
      have hsource : sourceOf fs readlink cFile = lines := by
        rw [← hlines, sourceOf, hl]
        simp only [hf]
      rw [hsource, ← hlines]
      exact ⟨s, by rw [hlines]; exact hs, Except.ok.inj he, rows_readlines _⟩
    | missing => simp [openLines, hf] at hlines
    | unreadable => simp [openLines, hf] at hlines

theorem definePieces_cons {d d₁ : Defines} {cFile : Str} (cFiles : List Str)
    (h : addDefines fs readlink d cFile = .ok d₁) :
    definePieces fs readlink d (cFile :: cFiles) =
      linesPieces ((readlink cFile).getD []) ⟨d, false, [], 0⟩ (sourceOf fs readlink cFile) ++
        definePieces fs readlink d₁ cFiles := by
  rw [definePieces, h]

theorem definePieces_text {d d' : Defines} {cFiles : List Str}
    (h : cFiles.foldlM (addDefines fs readlink) d = .ok d') :
    d'.text = d.text ++ textOf (definePieces fs readlink d cFiles) := by
  induction cFiles generalizing d with
  | nil =>
    rw [foldlM_nil_inv h]
    simp [definePieces]
  | cons cFile cFiles ih =>
    obtain ⟨d₁, h₁, h⟩ := foldlM_cons_inv h
    obtain ⟨s, hs, hacc, _⟩ := addDefines_ok h₁
    rw [definePieces_cons cFiles h₁, ih h, ← hacc, linesPieces_text hs, textOf_append,
      List.append_assoc]

theorem definePieces_ownLine {d d' : Defines} {cFiles : List Str}
    (h : cFiles.foldlM (addDefines fs readlink) d = .ok d') (t : Str) :
    OwnLineFrom t (definePieces fs readlink d cFiles) ↔
      ∀ f ∈ cFiles, ¬ GluedDefine (sourceOf fs readlink f) := by
  induction cFiles generalizing d t with
  | nil => simp [definePieces, OwnLineFrom]
  | cons cFile cFiles ih =>
    obtain ⟨d₁, h₁, h⟩ := foldlM_cons_inv h
    obtain ⟨s, hs, _, hr⟩ := addDefines_ok h₁
    rw [definePieces_cons cFiles h₁, ownLineFrom_append, linesPieces_ownLine hr hs, ih h,
      List.forall_mem_cons]

theorem definePieces_endsLine {d d' : Defines} {cFiles : List Str}
    (h : cFiles.foldlM (addDefines fs readlink) d = .ok d') (t : Str) :
    EndsLine (t ++ textOf (definePieces fs readlink d cFiles)) ↔
      ((cFiles.map (sourceOf fs readlink)).filter mentionsDefine = [] → EndsLine t) ∧
        ¬ OpenDefines (cFiles.map (sourceOf fs readlink)) := by
  induction cFiles generalizing d t with
  | nil => simp [definePieces, OpenDefines]
  | cons cFile cFiles ih =>
    obtain ⟨d₁, h₁, h⟩ := foldlM_cons_inv h
    obtain ⟨s, hs, _, hr⟩ := addDefines_ok h₁
    have hfile := linesPieces_endsLine hr hs t
    rw [writes_false] at hfile
    rw [definePieces_cons cFiles h₁, textOf_append, ← List.append_assoc, ih h, hfile, List.map_cons,
      openDefines_cons]
    cases hm : mentionsDefine (sourceOf fs readlink cFile) with
    | false =>
      have hopen : ¬ OpenMacro false (sourceOf fs readlink cFile) := fun ho => by
        rw [ho.mentions] at hm
        cases hm
      rw [List.filter_cons_of_neg (by simp [hm])]
      simp [hopen]
    | true =>
      rw [List.filter_cons_of_pos hm]
      simp only [Bool.true_eq_false, IsEmpty.forall_iff, reduceCtorEq, true_and, not_or, not_and]
      exact and_comm

end Calls

section Include
variable (upper : Str → Str)

def headerPieces (kv : Str × Str) : List Piece :=
  (if quoted kv.1 then
    [directive (ifndefCmd (guardMacro upper kv.1)),
      plain (defineCmd (guardMacro upper kv.1) ++ quotedCmd kv.1), directive endifCmd]
  else [plain (angleCmd kv.1)]) ++ [plain (fromText ++ kv.2 ++ ['\n'] ++ ['\n'])]

def includePieces (headers : OrderedDict Str Str) : List Piece :=
  headers.items.flatMap (headerPieces upper)

theorem headerPieces_text (kv : Str × Str) : textOf (headerPieces upper kv) = headerText upper kv := by
  rw [headerPieces, headerText, includeCmd]
  cases quoted kv.1 <;> simp

theorem flatMap_text {α : Type} (f : α → List Piece) (g : α → Str) {xs : List α}
    (h : ∀ x ∈ xs, textOf (f x) = g x) : textOf (xs.flatMap f) = (xs.map g).flatten := by
  induction xs with
  | nil => rfl
  | cons x xs ih =>
    rw [List.flatMap_cons, textOf_append, h x (by simp), List.map_cons, List.flatten_cons,
      ih fun y hy => h y (List.mem_cons_of_mem x hy)]

theorem includePieces_text (headers : OrderedDict Str Str) :
    textOf (includePieces upper headers) = writeHeaders upper headers :=
  flatMap_text _ _ fun kv _ => headerPieces_text upper kv

theorem headerPieces_endsLine (t : Str) (kv : Str × Str) :
    EndsLine (t ++ textOf (headerPieces upper kv)) := by
  rw [headerPieces, textOf_append, ← List.append_assoc, textOf_cons, textOf_nil, List.append_nil,
    plain_text, ← List.append_assoc]
  exact endsLine_newline _

theorem quotedCmd_newline (t file : Str) : EndsLine (t ++ quotedCmd file) := by
  have hcut : quotedCmd file = '#' :: Cpp.includeWord ++ ' ' :: '"' :: file ++ ['"'] ++ ['\n'] := by
    simp [quotedCmd]
  rw [hcut, ← List.append_assoc]
  exact endsLine_newline _

theorem headerPieces_ownLine (t : Str) (kv : Str × Str) :
    OwnLineFrom t (headerPieces upper kv) ↔ (quoted kv.1 = true → EndsLine t) := by
  rw [headerPieces]
  cases hq : quoted kv.1 with
  | false => simp [OwnLineFrom]
  | true =>
    have hlast := quotedCmd_newline (t ++ ifndefCmd (guardMacro upper kv.1) ++
      defineCmd (guardMacro upper kv.1)) kv.1
    rw [List.append_assoc, List.append_assoc] at hlast
    simp [OwnLineFrom, hlast]

theorem includePieces_ownLine (t : Str) (items : List (Str × Str)) :
    OwnLineFrom t (items.flatMap (headerPieces upper)) ↔
      ∀ kv ∈ items.head?, quoted kv.1 = true → EndsLine t := by
  induction items generalizing t with
  | nil => simp [OwnLineFrom]
  | cons kv items ih =>
    have hends := headerPieces_endsLine upper t kv
    rw [List.flatMap_cons, ownLineFrom_append, headerPieces_ownLine, ih]
    simp [hends]

theorem includePieces_endsLine (t : Str) (items : List (Str × Str)) :
    EndsLine (t ++ textOf (items.flatMap (headerPieces upper))) ↔ (items = [] → EndsLine t) := by
  induction items generalizing t with
  | nil => simp
  | cons kv items ih =>
    rw [List.flatMap_cons, textOf_append, ← List.append_assoc, ih]
    simp [headerPieces_endsLine]

end Include

section Functions
variable {fs : FS} (presDict : PresDict fs)

def rangeLines (fs : FS) (d : Defn) : List Str :=
  match fs d.srcFile with
  | .text t => sourceLines (readlines (universalNewlines t)) d.startLine d.endLine
  | _ => []

def guardOf (d : Defn) : Option Guard :=
  pickedGuard (presDict.lookup d.srcFile) d.startLine d.endLine

/-- The last line that is copied for the function has no line feed. -/
def OpenRange (fs : FS) (d : Defn) : Prop := ∃ l ∈ (rangeLines fs d).getLast?, ¬ EndsLine l

def functionPieces (d : Defn) : List Piece :=
  ((guardOf presDict d).map fun g => directive (guardLine g)).toList ++
    [plain (locationComment d.srcFile d.startLine d.endLine), plain (rangeLines fs d).flatten] ++
    ((guardOf presDict d).map fun _ => directive endGuard).toList

theorem functionPieces_text {d : Defn} (h : ∃ t, fs d.srcFile = .text t) :
    textOf (functionPieces presDict d) = definitionBlock presDict d := by
  obtain ⟨t, ht⟩ := h
  simp only [functionPieces, definitionBlock, rangeLines, ht, blockText, guardOf]
  cases pickedGuard (presDict.lookup d.srcFile) d.startLine d.endLine <;> simp

theorem rangeLines_ne_nil (fs : FS) (d : Defn) : ∀ l ∈ rangeLines fs d, l ≠ [] := by
  intro l hl
  rw [rangeLines] at hl
  split at hl
  · next t _ =>
    have hm := List.mem_of_mem_drop (List.mem_of_mem_take hl)
    exact ((rows_readlines (universalNewlines t)).mem l hm).1
  · simp at hl

theorem locationComment_newline (t : Str) (d : Defn) :
    EndsLine (t ++ locationComment d.srcFile d.startLine d.endLine) := by
  have hcut : ∃ a b, locationComment d.srcFile d.startLine d.endLine = a ++ b ∧ b ≠ [] ∧
      EndsLine b :=
    ⟨_, "\n */ \n".toList, rfl, by decide +kernel, Or.inr ⟨"\n */ ".toList, by decide +kernel⟩⟩
  obtain ⟨a, b, he, hne, hend⟩ := hcut
  rw [he, ← List.append_assoc, endsLine_append_iff _ hne]
  exact hend

theorem rangeLines_endsLine (fs : FS) (t : Str) (d : Defn) :
    EndsLine (t ++ locationComment d.srcFile d.startLine d.endLine ++ (rangeLines fs d).flatten) ↔
      ¬ OpenRange fs d := by
  rw [OpenRange]
  cases List.eq_nil_or_concat (rangeLines fs d) with
  | inl hn =>
    rw [hn, List.flatten_nil, List.append_nil]
    refine iff_of_true (locationComment_newline t d) ?_
    simp
  | inr hc =>
    obtain ⟨init, last, hc⟩ := hc
    rw [List.concat_eq_append] at hc
    have hne : last ≠ [] := rangeLines_ne_nil fs d last (by simp [hc])
    rw [hc, List.flatten_append, ← List.append_assoc, List.flatten_singleton,
      endsLine_append_iff _ hne, List.getLast?_concat]
    simp only [Option.mem_some_iff, exists_eq_left', not_not]

theorem functionPieces_endsLine (t : Str) (d : Defn) :
    EndsLine (t ++ textOf (functionPieces presDict d)) ↔
      (OpenRange fs d → (guardOf presDict d).isSome = true) := by
  rw [functionPieces]
  cases hg : guardOf presDict d with
  | none =>
    have hrange := rangeLines_endsLine fs t d
    rw [List.append_assoc] at hrange
    simpa using hrange
  | some g =>
    have hend : EndsLine endGuard := Or.inr ⟨"#endif ".toList, by decide +kernel⟩
    have hne : endGuard ≠ [] := by decide +kernel
    have hclose : textOf ((some g).map fun _ => directive endGuard).toList = endGuard := by simp
    rw [textOf_append, ← List.append_assoc, hclose, endsLine_append_iff _ hne]
    exact iff_of_true hend fun _ => rfl

theorem functionPieces_ownLine (t : Str) (d : Defn) :
    OwnLineFrom t (functionPieces presDict d) ↔
      ((guardOf presDict d).isSome = true → EndsLine t ∧ ¬ OpenRange fs d) := by
  rw [functionPieces]
  cases hg : guardOf presDict d with
  | none => simp [OwnLineFrom]
  | some g =>
    have hrange := rangeLines_endsLine fs (t ++ guardLine g) d
    simp [OwnLineFrom, ← hrange]

theorem functionsPieces_ownLine (t : Str) (ds : List Defn) :
    OwnLineFrom t (ds.flatMap (functionPieces presDict)) ↔
      (∀ d ∈ ds.head?, (guardOf presDict d).isSome = true → EndsLine t) ∧
      (∀ d ∈ ds, OpenRange fs d → guardOf presDict d = none) ∧
      ds.IsChain (fun d d' => OpenRange fs d → guardOf presDict d' = none) := by
  induction ds generalizing t with
  | nil => simp [OwnLineFrom]
  | cons d ds ih =>
    rw [List.flatMap_cons, ownLineFrom_append, functionPieces_ownLine, ih, List.head?_cons,
      List.forall_mem_cons, functionPieces_endsLine]
    simp only [Option.mem_some_iff, forall_eq', ← Option.not_isSome_iff_eq_none]
    have hsplit : ((guardOf presDict d).isSome = true → EndsLine t ∧ ¬ OpenRange fs d) ↔
        ((guardOf presDict d).isSome = true → EndsLine t) ∧
          (OpenRange fs d → ¬ (guardOf presDict d).isSome = true) := by
      rw [imp_and, imp_not_comm]
    rw [hsplit]
    cases ds with
    | nil => simp
    | cons d' ds =>
      rw [List.isChain_cons_cons]
      simp only [List.head?_cons, Option.mem_some_iff, forall_eq']
      constructor
      · intro h
        obtain ⟨⟨hstart, hopen⟩, hfirst, hrest, hchain⟩ := h
        exact ⟨hstart, ⟨hopen, hrest⟩, fun ho hg => hopen ho (hfirst hg ho), hchain⟩
      · intro h
        obtain ⟨hstart, ⟨hopen, hrest⟩, hnext, hchain⟩ := h
        exact ⟨⟨hstart, hopen⟩, fun hg ho => absurd hg (hnext ho), hrest, hchain⟩

end Functions

section Output
variable (upper : Str → Str) {fs : FS} (readlink : Str → Option Str)

/-- The calls of addDefines, the header loop and dumpFns. -/
def outputPieces (cFiles : List Str) (headers : OrderedDict Str Str) (presDict : PresDict fs)
    (ds : List Defn) : List Piece :=
  definePieces fs readlink .empty cFiles ++ includePieces upper headers ++
    ds.flatMap (functionPieces presDict)

/-- What is written first after the #define blocks starts with no directive. -/
def StartsPlain (headers : OrderedDict Str Str) (presDict : PresDict fs) (ds : List Defn) : Prop :=
  match headers.items with
  | kv :: _ => quoted kv.1 = false
  | [] => ∀ d ∈ ds.head?, guardOf presDict d = none

/-- The unterminated last lines that are copied come before no directive. -/
def Terminated (cFiles : List Str) (headers : OrderedDict Str Str) (presDict : PresDict fs)
    (ds : List Defn) : Prop :=
  (∀ f ∈ cFiles, ¬ GluedDefine (sourceOf fs readlink f)) ∧
  (OpenDefines (cFiles.map (sourceOf fs readlink)) → StartsPlain headers presDict ds) ∧
  (∀ d ∈ ds, OpenRange fs d → guardOf presDict d = none) ∧
  ds.IsChain fun d d' => OpenRange fs d → guardOf presDict d' = none

theorem startsPlain_iff (headers : OrderedDict Str Str) (presDict : PresDict fs) (ds : List Defn)
    (P : Prop) :
    ((∀ kv ∈ headers.items.head?, quoted kv.1 = true → ¬ P) ∧
      ∀ d ∈ ds.head?, (guardOf presDict d).isSome = true → headers.items = [] → ¬ P) ↔
    (P → StartsPlain headers presDict ds) := by
  rw [StartsPlain]
  cases headers.items with
  | nil =>
    simp only [List.head?_nil, Option.not_mem_none, IsEmpty.forall_iff, implies_true, true_and,
      forall_const, ← Option.not_isSome_iff_eq_none]
    exact ⟨fun h hp d hd hg => h d hd hg hp, fun h d hd hg hp => h hp d hd hg⟩
  | cons kv items =>
    simp only [List.head?_cons, Option.mem_some_iff, forall_eq', reduceCtorEq, IsEmpty.forall_iff,
      implies_true, and_true, ← Bool.not_eq_true]
    exact imp_not_comm

theorem outputPieces_ownLine {cFiles : List Str} {d : Defines}
    (h : cFiles.foldlM (addDefines fs readlink) .empty = .ok d) (headers : OrderedDict Str Str)
    (presDict : PresDict fs) (ds : List Defn) :
    OwnLine (outputPieces upper readlink cFiles headers presDict ds) ↔
      Terminated readlink cFiles headers presDict ds := by
  have hstart : EndsLine ([] ++ textOf (definePieces fs readlink .empty cFiles)) ↔
      ¬ OpenDefines (cFiles.map (sourceOf fs readlink)) := by
    rw [definePieces_endsLine h]
    exact and_iff_right fun _ => Or.inl rfl
  rw [ownLine_iff, outputPieces, ownLineFrom_append, ownLineFrom_append, definePieces_ownLine h,
    functionsPieces_ownLine, includePieces, includePieces_ownLine, textOf_append,
    ← List.append_assoc, includePieces_endsLine, hstart, Terminated, ← startsPlain_iff]
  simp only [and_assoc]

end Output

/-- In every run that returns, over any source files, call graph, function table and order of the
#define files: the output consists of the pieces of the three writers, and every directive among
them starts a line if and only if no unterminated last line is copied before a directive. -/
theorem directives_own_line_iff (upper : Str → Str) (readlink : Str → Option Str) (fs : FS)
    (lines : List Str) (g : GraphState) (table : FuncTable) (presDict : PresDict fs)
    (defineFiles : Finset Str) (st : BuildState fs) (cFiles : List Str) (d : Defines)
    (hparse : parseFunctionCallGraph fs lines .empty = .ok g)
    (hbuild : buildFnListToExtract table ⟨g.fns, presDict, defineFiles⟩ = .ok st)
    (hdefs : cFiles.foldlM (addDefines fs readlink) .empty = .ok d) :
    ∃ out, dumpFns fs st.presDict st.fns = .ok out ∧
      textOf (outputPieces upper readlink cFiles g.headers st.presDict (written st.fns)) =
        d.text ++ writeHeaders upper g.headers ++ dumpText out ∧
      (OwnLine (outputPieces upper readlink cFiles g.headers st.presDict (written st.fns)) ↔
        Terminated readlink cFiles g.headers st.presDict (written st.fns)) := by
  rw [build_eq] at hbuild
  have hscanned := written_scanned hbuild (parse_unresolved hparse)
  refine ⟨_, dumpFns_scanned _ _ hscanned, ?_, outputPieces_ownLine upper readlink hdefs _ _ _⟩
  have hfns : textOf ((written st.fns).flatMap (functionPieces st.presDict)) =
      ((written st.fns).map (definitionBlock st.presDict)).flatten := by
    refine flatMap_text _ _ fun x hx => functionPieces_text st.presDict ?_
    obtain ⟨t, ht, _⟩ := st.presDict.text_of_mem (hscanned x hx)
    exact ⟨t, ht⟩
  have htext : d.text = textOf (definePieces fs readlink .empty cFiles) := definePieces_text hdefs
  rw [outputPieces, textOf_append, textOf_append, hfns, includePieces_text, htext, dumpText,
    List.map_map]
  rfl

def unendedFiles : FS := filesOf [("a.c".toList, "int f;\n#define A 1".toList)]

def unendedGraph : List Str := readlines "\x7b\nf,1,a.c,1\n\x7d\n".toList

def unendedState : GraphState :=
  { GraphState.empty with fns := ⟨[("f:a.c".toList, none)], List.nodup_singleton _⟩ }

def unendedTable : FuncTable := ⟨[("f".toList, [⟨"a.c".toList, 1, 1⟩])], List.nodup_singleton _⟩

def unendedBuilt : BuildState unendedFiles :=
  ⟨⟨[("f:a.c".toList, some ⟨"f".toList, "a.c".toList, 1, 1⟩)], List.nodup_singleton _⟩,
    (PresDict.empty unendedFiles).add "a.c".toList [] (by decide +kernel), {"a.c".toList}⟩

theorem directives_own_line_iff_unended :
    ∃ out d, ["a.c".toList].foldlM (addDefines unendedFiles some) .empty = .ok d ∧
      dumpFns unendedFiles unendedBuilt.presDict unendedBuilt.fns = .ok out ∧
      textOf (outputPieces capitals some ["a.c".toList] unendedState.headers unendedBuilt.presDict
          (written unendedBuilt.fns)) =
        d.text ++ writeHeaders capitals unendedState.headers ++ dumpText out ∧
      (OwnLine (outputPieces capitals some ["a.c".toList] unendedState.headers
          unendedBuilt.presDict (written unendedBuilt.fns)) ↔
        Terminated some ["a.c".toList] unendedState.headers unendedBuilt.presDict
          (written unendedBuilt.fns)) := by
  have hdefs : ∃ d, ["a.c".toList].foldlM (addDefines unendedFiles some) .empty = .ok d := ⟨_, rfl⟩
  obtain ⟨d, hd⟩ := hdefs
  obtain ⟨out, h⟩ := directives_own_line_iff capitals some unendedFiles unendedGraph unendedState
    unendedTable (.empty unendedFiles) ∅ unendedBuilt ["a.c".toList] d rfl rfl hd
  exact ⟨out, d, hd, h⟩

/-- The #endif of the block is written behind the copied #define line. -/
theorem endif_glued :
    ∃ g st d pre post, parseFunctionCallGraph unendedFiles unendedGraph .empty = .ok g ∧
      buildFnListToExtract unendedTable ⟨g.fns, .empty unendedFiles, ∅⟩ = .ok st ∧
      ["a.c".toList].foldlM (addDefines unendedFiles some) .empty = .ok d ∧
      d.text = pre ++ "#define A 1#endif //OPENED define A END\n".toList ++ post ∧
      ¬ OwnLine (outputPieces capitals some ["a.c".toList] g.headers st.presDict
        (written st.fns)) := by
  refine ⟨unendedState, unendedBuilt, _, beginComment "a.c".toList 2 ++ ifndefLine "A".toList,
    '\n' :: endComment true "a.c".toList 2, rfl, rfl, rfl, by decide +kernel, fun h => ?_⟩
  have hends := h
    [plain (beginComment "a.c".toList 2), directive (ifndefLine "A".toList),
      plain "#define A 1".toList] (directive (endifLine "A".toList))
    ((outputPieces capitals some ["a.c".toList] unendedState.headers unendedBuilt.presDict
      (written unendedBuilt.fns)).drop 4) (by decide +kernel) rfl
  have hlast := (endsLine_iff _).mp hends '1' (by decide +kernel)
  revert hlast
  decide

end OpenedExtraction.OwnLines
