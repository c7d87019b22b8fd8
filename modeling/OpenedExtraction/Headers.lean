import OpenedExtraction.CallGraph
import OpenedExtraction.CppRows
import OpenedExtraction.CppTables

/-! The include section: one guarded #include for each recorded header, and which of them a
C preprocessor reaches. -/
namespace OpenedExtraction.Headers
open OpenedExtraction.PyText OpenedExtraction.CallGraph OpenedExtraction.Cpp

def frameworkText : Str := "_OPENED_FRAMEWORK".toList
def fromText : Str := "//OPENED: included from: ".toList

/-- not "<" in header -/
def quoted (header : Str) : Bool := decide ('<' ∉ header)

section Loop
variable (upper : Str → Str)

/-- The guard macro; upper stands for str.upper. -/
def guardMacro (header : Str) : Str :=
  replace '-' '_' (replace '/' '_' (replace '.' '_' (upper ((header.splitOn '/').getLastD [])))) ++
    frameworkText

def ifndefCmd (macroName : Str) : Str := '#' :: ifndefWord ++ ' ' :: macroName ++ ['\n']
def defineCmd (macroName : Str) : Str := '#' :: defineWord ++ ' ' :: macroName ++ ['\n']
def quotedCmd (file : Str) : Str := '#' :: includeWord ++ ' ' :: '"' :: file ++ ['"', '\n']
def angleCmd (file : Str) : Str := '#' :: includeWord ++ ' ' :: file ++ ['\n']
def endifCmd : Str := "#endif \n\n".toList

def includeCmd (header : Str) : Str :=
  if quoted header then
    ifndefCmd (guardMacro upper header) ++ defineCmd (guardMacro upper header) ++
      quotedCmd header ++ endifCmd
  else angleCmd header

/-- What is written for a header and the source file that was read last for it. -/
def headerText (kv : Str × Str) : Str :=
  includeCmd upper kv.1 ++ (fromText ++ kv.2 ++ ['\n'] ++ ['\n'])

/-- The header loop. -/
def writeHeaders (headers : OrderedDict Str Str) : Str :=
  (headers.items.map (headerText upper)).flatten

end Loop

/-- A header without quotes and line feeds, and a file name without line feeds. -/
def Entry (kv : Str × Str) : Prop := '"' ∉ kv.1 ∧ '\n' ∉ kv.1 ∧ '\n' ∉ kv.2

def Recorded (headers : OrderedDict Str Str) : Prop := ∀ h f, headers.get? h = some f → Entry (h, f)

theorem Recorded.entry {headers : OrderedDict Str Str} (h : Recorded headers) :
    ∀ kv ∈ headers.items, Entry kv := fun kv hm => h kv.1 kv.2 (headers.get?_of_mem hm)

theorem includeOperand_ok {line h : Str} (hl : includeOperand line = .ok h) :
    '"' ∉ h ∧ '\n' ∉ h := by
  rw [includeOperand] at hl
  cases hw : (split line).getLast? with
  | none => simp [hw] at hl
  | some w =>
    simp only [hw, Except.ok.injEq] at hl
    have htok := mem_split line w (List.mem_of_getLast? hw)
    rw [← hl]
    refine ⟨by simp [remove], fun hm => ?_⟩
    exact absurd (htok.2 '\n' (List.mem_of_mem_filter hm)) (by decide)

theorem addInclude_recorded {cFile line : Str} (hf : '\n' ∉ cFile) {g g' : GraphState}
    (hg : Recorded g.headers) (h : addInclude cFile g line = .ok g') : Recorded g'.headers := by
  obtain ⟨w, _, hw, rfl⟩ | ⟨_, rfl⟩ := addInclude_cases h
  · obtain ⟨hq, hn⟩ := includeOperand_ok hw
    intro k f hk
    rw [OrderedDict.get?_set] at hk
    by_cases hkw : k = w
    · rw [if_pos hkw, Option.some.injEq] at hk
      rw [hkw, ← hk]
      exact ⟨hq, hn, hf⟩
    · rw [if_neg hkw] at hk
      exact hg k f hk
  · exact hg

theorem addDependsOn_recorded {fs : FS} {cFile : Str} (hf : '\n' ∉ cFile) {g g' : GraphState}
    (hg : Recorded g.headers) (h : addDependsOn fs g cFile = .ok g') : Recorded g'.headers := by
  rw [addDependsOn, bind_eq_ok] at h
  obtain ⟨lines, _, h⟩ := h
  exact foldlM_invariant (fun x => Recorded x.headers)
    (fun _ _ _ _ ha hb => addInclude_recorded hf ha hb) h hg

theorem recorded_of_calls {fs : FS} {cFiles : List Str} (hf : ∀ f ∈ cFiles, '\n' ∉ f)
    {g : GraphState} (h : cFiles.foldlM (addDependsOn fs) .empty = .ok g) :
    Recorded g.headers := by
  refine foldlM_invariant (fun x => Recorded x.headers) ?_ h ?_
  · intro a f b hm ha hb
    exact addDependsOn_recorded (hf f hm) ha hb
  · intro k f hk
    simp [GraphState.empty] at hk

section Reading
variable (upper : Str → Str)

def guardRest (header : Str) : Str := (guardMacro upper header).dropWhile blank

/-- The macro that C tests: the leading identifier of the guard. -/
def testedName (header : Str) : Str := lead (guardRest upper header)

/-- The comment line after a header, with the empty line that ends it. -/
def fromLines (file : Str) : Str := fromText ++ file ++ ['\n'] ++ ['\n']

/-- The #include line of a <...> header and the comment line after it leave no comment open. -/
def AngleClosed (header file : Str) : Prop := (reads (angleCmd header ++ fromLines file)).isSome

instance (header file : Str) : Decidable (AngleClosed header file) :=
  inferInstanceAs (Decidable (_ = _))

/-- What C reads after #include on the line of a header. -/
def operandOf (kv : Str × Str) : Str :=
  if quoted kv.1 then '"' :: kv.1 ++ ['"']
  else (codeText (kv.1 ++ '\n' :: fromLines kv.2)).dropWhile blank

def headerDirectives (kv : Str × Str) : List Directive :=
  if quoted kv.1 then
    .ifndef (testedName upper kv.1) ::
      ((directiveOf defineWord (guardRest upper kv.1)).toList ++ [.include_ (operandOf kv), .endif])
  else [.include_ (operandOf kv)]

variable {upper}

theorem guardMacro_noSlash (header : Str) : '/' ∉ guardMacro upper header := by
  have hf : '/' ∉ frameworkText := by decide +kernel
  have hr : ∀ s : Str, '/' ∉ replace '-' '_' (replace '/' '_' s) := by
    intro s hm
    simp only [replace, List.map_map, List.mem_map, Function.comp_def] at hm
    obtain ⟨c, _, hc⟩ := hm
    by_cases h1 : c = '/'
    · simp [h1] at hc
    · by_cases h2 : c = '-'
      · simp [h2] at hc
      · simp [h1, h2] at hc
  rw [guardMacro, List.mem_append, not_or]
  exact ⟨hr _, hf⟩

theorem guardMacro_oneLine (hu : ∀ s, '\n' ∉ s → '\n' ∉ upper s) {header : Str}
    (h : '\n' ∉ header) : '\n' ∉ guardMacro upper header := by
  have hf : '\n' ∉ frameworkText := by decide +kernel
  have hr : ∀ (a : Char) (s : Str), '\n' ∉ s → '\n' ∉ replace a '_' s := by
    intro a s hs hm
    simp only [replace, List.mem_map] at hm
    obtain ⟨c, hc, he⟩ := hm
    by_cases h1 : c = a
    · simp [h1] at he
    · rw [if_neg h1] at he
      exact hs (he ▸ hc)
  have hlast : '\n' ∉ (header.splitOn '/').getLastD [] := by
    intro hm
    rw [List.getLastD_eq_getLast?] at hm
    cases hl : (header.splitOn '/').getLast? with
    | none => simp [hl] at hm
    | some w =>
      rw [hl, Option.getD_some] at hm
      exact h (mem_splitOnP _ header w (List.mem_of_getLast? hl) '\n' hm).1
  rw [guardMacro, List.mem_append, not_or]
  exact ⟨hr _ _ (hr _ _ (hr _ _ (hu _ hlast))), hf⟩

theorem guardMacro_last (header : Str) : (guardMacro upper header).getLast? ≠ some '\\' := by
  have hf : frameworkText.getLast? = some 'K' := by decide +kernel
  rw [guardMacro, List.getLast?_append, hf]
  simp

theorem reads_endifCmd : reads endifCmd = some [.endif] := by decide +kernel

theorem splice_fromLines {file : Str} (h : '\n' ∉ file) :
    ∃ p ps, splice (fromLines file) = rows (p :: ps) ∧ ∀ q ∈ p :: ps, SilentRow q := by
  have hf : fromText = '/' :: '/' :: fromText.drop 2 := by decide +kernel
  have hn : '\n' ∉ fromText.drop 2 ++ file := by
    have hd : '\n' ∉ fromText.drop 2 := by decide +kernel
    simp [hd, h]
  rw [fromLines, hf]
  exact splice_comment_blank hn

theorem fromLines_last (file : Str) : (fromLines file).getLast? ≠ some '\\' := by
  rw [fromLines, List.getLast?_append]
  simp

theorem reads_fromLines {file : Str} (h : '\n' ∉ file) : reads (fromLines file) = some [] := by
  obtain ⟨p, ps, he, hs⟩ := splice_fromLines h
  exact reads_silent he hs (fromLines_last file)

theorem splice_angle {header file : Str} (hn : '\n' ∉ header) (hf : '\n' ∉ file) :
    ∃ p ps, splice (angleCmd header ++ fromLines file) = rows (p :: ps) ∧ '\n' ∉ p ∧
      ∀ q ∈ ps, SilentRow q := by
  obtain ⟨r, rs, he, hs⟩ := splice_fromLines hf
  have hw : '\n' ∉ '#' :: includeWord ++ [' '] := by decide +kernel
  by_cases hlast : header.getLast? = some '\\'
  · obtain ⟨u, rfl⟩ := List.getLast?_eq_some_iff.mp hlast
    have hu : '\n' ∉ '#' :: includeWord ++ [' '] ++ u := by
      rw [List.mem_append, not_or]
      exact ⟨hw, fun hm => hn (by simp [hm])⟩
    have hcut : angleCmd (u ++ ['\\']) ++ fromLines file =
        ('#' :: includeWord ++ [' '] ++ u) ++ '\\' :: '\n' :: fromLines file := by simp [angleCmd]
    refine ⟨('#' :: includeWord ++ [' '] ++ u) ++ r, rs, ?_, ?_,
      fun q hq => hs q (List.mem_cons_of_mem r hq)⟩
    · rw [hcut, splice_joined _ _ hu, he, rows_cons, rows_cons]
      simp
    · rw [List.mem_append, not_or]
      exact ⟨hu, (hs r List.mem_cons_self).1⟩
  · have hline : '\n' ∉ '#' :: includeWord ++ ' ' :: header := by
      have hi : '\n' ∉ includeWord := by decide +kernel
      simp [hi, hn]
    refine ⟨'#' :: includeWord ++ ' ' :: header, r :: rs, ?_, hline, hs⟩
    rw [splice_append _ _ (by rw [angleCmd, List.getLast?_append]; simp), he, angleCmd,
      splice_line _ hline (getLast?_append_cons_ne _ (by decide) hlast)]
    rfl

theorem reads_angle {kv : Str × Str} (hn : '\n' ∉ kv.1) (hf : '\n' ∉ kv.2)
    (hquoted : quoted kv.1 = false) (hc : AngleClosed kv.1 kv.2) :
    reads (headerText upper kv) = some [.include_ (operandOf kv)] := by
  obtain ⟨ds, hds⟩ := Option.isSome_iff_exists.mp hc
  obtain ⟨p, ps, he, hp, hps⟩ := splice_angle hn hf
  have htext : headerText upper kv = angleCmd kv.1 ++ fromLines kv.2 := by
    rw [headerText, includeCmd, if_neg (by simp [hquoted])]
    rfl
  have hline : angleCmd kv.1 ++ fromLines kv.2 =
      '#' :: includeWord ++ ' ' :: (kv.1 ++ '\n' :: fromLines kv.2) := by simp [angleCmd]
  have hhead := reads_head he hp hps hds
  rw [hline, lineDirective_include] at hhead
  rw [htext, hds, hhead, operandOf, if_neg (by simp [hquoted])]
  rfl

theorem reads_quotedCmd (hu : ∀ s, '\n' ∉ s → '\n' ∉ upper s) {header : Str} (hq : '"' ∉ header)
    (hn : '\n' ∉ header) :
    reads (ifndefCmd (guardMacro upper header)) = some [.ifndef (testedName upper header)] ∧
      reads (defineCmd (guardMacro upper header)) =
        some (directiveOf defineWord (guardRest upper header)).toList ∧
      reads (quotedCmd header) = some [.include_ ('"' :: header ++ ['"'])] := by
  have hm := guardMacro_oneLine hu hn
  have h1 := reads_verbatim ifndefWord (guardMacro upper header)
    (List.all_eq_true.mp (by decide +kernel)) (by decide +kernel) (guardMacro_noSlash _) hm
    (guardMacro_last _)
  have h2 := reads_verbatim defineWord (guardMacro upper header)
    (List.all_eq_true.mp (by decide +kernel)) (by decide +kernel) (guardMacro_noSlash _) hm
    (guardMacro_last _)
  rw [directiveOf_ifndef] at h1
  exact ⟨h1, h2, reads_include header hq hn⟩

theorem reads_headerText (hu : ∀ s, '\n' ∉ s → '\n' ∉ upper s) {kv : Str × Str}
    (hq : '"' ∉ kv.1) (hn : '\n' ∉ kv.1) (hc : quoted kv.1 = false → AngleClosed kv.1 kv.2)
    (hf : '\n' ∉ kv.2) :
    reads (headerText upper kv) = some (headerDirectives upper kv) := by
  cases hquoted : quoted kv.1 with
  | true =>
    obtain ⟨h1, h2, h3⟩ := reads_quotedCmd hu hq hn
    have h4 := reads_append (reads_append (reads_append (reads_append h1 h2) h3) reads_endifCmd)
      (reads_fromLines hf)
    rw [headerText, includeCmd, if_pos hquoted, headerDirectives, if_pos hquoted, operandOf,
      if_pos hquoted]
    simpa [fromLines] using h4
  | false =>
    rw [reads_angle hn hf hquoted (hc hquoted), headerDirectives, if_neg (by simp [hquoted])]

theorem reads_entries (hu : ∀ s, '\n' ∉ s → '\n' ∉ upper s) {items : List (Str × Str)}
    (hr : ∀ kv ∈ items, Entry kv)
    (hc : ∀ kv ∈ items, quoted kv.1 = false → AngleClosed kv.1 kv.2) :
    reads (items.map (headerText upper)).flatten =
      some (items.flatMap (headerDirectives upper)) := by
  induction items with
  | nil => exact reads_nil
  | cons kv items ih =>
    obtain ⟨hq, hn, hf⟩ := hr kv List.mem_cons_self
    exact reads_append (reads_headerText hu hq hn (hc kv List.mem_cons_self) hf)
      (ih (fun x hx => hr x (List.mem_cons_of_mem kv hx))
        fun x hx => hc x (List.mem_cons_of_mem kv hx))

theorem reads_writeHeaders (hu : ∀ s, '\n' ∉ s → '\n' ∉ upper s)
    {headers : OrderedDict Str Str} (hr : ∀ kv ∈ headers.items, Entry kv)
    (hc : ∀ kv ∈ headers.items, quoted kv.1 = false → AngleClosed kv.1 kv.2) :
    reads (writeHeaders upper headers) =
      some (headers.items.flatMap (headerDirectives upper)) := reads_entries hu hr hc

theorem splice_quoted (hu : ∀ s, '\n' ∉ s → '\n' ∉ upper s) {kv : Str × Str} (hn : '\n' ∉ kv.1)
    (hf : '\n' ∉ kv.2) (hquoted : quoted kv.1 = true) :
    ∃ ps q qs, splice (headerText upper kv) = rows ps ++ (q ++ ['\n'] ++ rows qs) ∧
      (∀ p ∈ ps, '/' ∉ p ∧ QuietRow p) ∧ '\n' ∉ q ∧ ∀ r ∈ qs, QuietRow r := by
  have hguard : ∀ word : Str, '/' ∉ word → '\n' ∉ word →
      '/' ∉ '#' :: word ++ ' ' :: guardMacro upper kv.1 ∧
        '\n' ∉ '#' :: word ++ ' ' :: guardMacro upper kv.1 := fun word h1 h2 =>
    ⟨by simp [h1, guardMacro_noSlash], by simp [h2, guardMacro_oneLine hu hn]⟩
  have hifndef := hguard ifndefWord (by decide +kernel) (by decide +kernel)
  have hdefine := hguard defineWord (by decide +kernel) (by decide +kernel)
  have hq1 := quietRow_word (List.all_eq_true.mp (by decide +kernel)) (by decide +kernel)
    hifndef.1 hifndef.2 fun r d hd => by
      rw [directiveOf_ifndef, Option.mem_some_iff] at hd
      rw [← hd]
      rfl
  have hq2 := quietRow_word (List.all_eq_true.mp (by decide +kernel)) (by decide +kernel)
    hdefine.1 hdefine.2 fun r d hd => by
      rw [directiveOf, if_pos rfl, Option.mem_def, Option.ite_none_left_eq_some] at hd
      rw [← Option.some.inj hd.2]
      rfl
  have hinclude : '\n' ∉ '#' :: includeWord ++ ' ' :: '"' :: kv.1 ++ ['"'] := by
    have hi : '\n' ∉ includeWord := by decide +kernel
    simp [hi, hn]
  have hlast : ∀ word : Str,
      ('#' :: word ++ ' ' :: guardMacro upper kv.1).getLast? ≠ some '\\' := fun word =>
    getLast?_append_cons_ne _ (by decide) (guardMacro_last _)
  obtain ⟨r, rs, he, hs⟩ := splice_fromLines hf
  have hend : splice (endifCmd ++ fromLines kv.2) = rows ("#endif ".toList :: [] :: r :: rs) := by
    have hcmd : endifCmd = "#endif ".toList ++ ['\n'] ++ ([] ++ ['\n']) := by decide +kernel
    rw [hcmd, List.append_assoc, splice_row (by decide +kernel) (by decide +kernel),
      splice_row (by simp) (by simp), he]
    simp [rows]
  refine ⟨['#' :: ifndefWord ++ ' ' :: guardMacro upper kv.1,
    '#' :: defineWord ++ ' ' :: guardMacro upper kv.1],
    '#' :: includeWord ++ ' ' :: '"' :: kv.1 ++ ['"'], "#endif ".toList :: [] :: r :: rs, ?_,
    List.forall_mem_cons.mpr ⟨⟨hifndef.1, hq1⟩, List.forall_mem_singleton.mpr ⟨hdefine.1, hq2⟩⟩,
    hinclude, ?_⟩
  · have htext : headerText upper kv =
        '#' :: ifndefWord ++ ' ' :: guardMacro upper kv.1 ++ ['\n'] ++
          ('#' :: defineWord ++ ' ' :: guardMacro upper kv.1 ++ ['\n'] ++
            ('#' :: includeWord ++ ' ' :: '"' :: kv.1 ++ ['"'] ++ ['\n'] ++
              (endifCmd ++ fromLines kv.2))) := by
      rw [headerText, includeCmd, if_pos hquoted]
      simp [ifndefCmd, defineCmd, quotedCmd, fromLines]
    rw [htext, splice_row hifndef.2 (hlast _), splice_row hdefine.2 (hlast _),
      splice_row hinclude (by rw [List.getLast?_append]; simp), hend]
    simp [rows]
  · intro q hq
    rcases List.mem_cons.mp hq with rfl | hq
    · exact ⟨by decide +kernel, _, lex_verbatim rfl [] _ (by decide +kernel) (by decide +kernel),
        by decide +kernel⟩
    · rcases List.mem_cons.mp hq with rfl | hq
      · exact silentRow_nil.quiet
      · exact (hs q hq).quiet

/-- Whatever is open before it, the text of a header adds at most one #include, and inside a
comment none. -/
theorem headerText_adds (hu : ∀ s, '\n' ∉ s → '\n' ∉ upper s) {kv : Str × Str} (hn : '\n' ∉ kv.1)
    (hf : '\n' ∉ kv.2) :
    Adds 1 (splice (headerText upper kv)) ∧ Absorbed (splice (headerText upper kv)) := by
  cases hquoted : quoted kv.1 with
  | true =>
    obtain ⟨ps, q, qs, he, hps, hq, hqs⟩ := splice_quoted hu hn hf hquoted
    rw [he]
    exact ⟨(adds_quiet fun p hp => (hps p hp).2).append ((adds_row hq).append (adds_quiet hqs)),
      Absorbed.after (fun p hp => (hps p hp).1) ((absorbed_row hq).append (adds_quiet hqs))⟩
  | false =>
    obtain ⟨p, ps, he, hp, hps⟩ := splice_angle hn hf
    have htext : headerText upper kv = angleCmd kv.1 ++ fromLines kv.2 := by
      rw [headerText, includeCmd, if_neg (by simp [hquoted])]
      rfl
    have hrest : Adds 0 (rows ps) := adds_quiet fun q hq => (hps q hq).quiet
    rw [htext, he, rows_cons]
    exact ⟨(adds_row hp).append hrest, (absorbed_row hp).append hrest⟩

theorem headerText_last (kv : Str × Str) : (headerText upper kv).getLast? ≠ some '\\' := by
  rw [headerText, List.getLast?_append, List.getLast?_append]
  simp

theorem section_adds (hu : ∀ s, '\n' ∉ s → '\n' ∉ upper s) {items : List (Str × Str)}
    (he : ∀ kv ∈ items, Entry kv) :
    Adds items.length (splice (items.map (headerText upper)).flatten) := by
  induction items with
  | nil => exact adds_nil
  | cons kv items ih =>
    have hkv := he kv List.mem_cons_self
    rw [List.map_cons, List.flatten_cons, splice_append _ _ (headerText_last kv), List.length_cons,
      Nat.add_comm]
    exact (headerText_adds hu hkv.2.1 hkv.2.2).1.append
      (ih fun x hx => he x (List.mem_cons_of_mem kv hx))

theorem section_lost (hu : ∀ s, '\n' ∉ s → '\n' ∉ upper s) {items : List (Str × Str)}
    (he : ∀ kv ∈ items, Entry kv) (hopen : ∃ kv ∈ items, reads (headerText upper kv) = none) :
    includeCount (lex .start (splice (items.map (headerText upper)).flatten)).1 < items.length := by
  induction items with
  | nil =>
    obtain ⟨kv, hm, _⟩ := hopen
    cases hm
  | cons kv items ih =>
    have hkv := he kv List.mem_cons_self
    have hrest : ∀ x ∈ items, Entry x := fun x hx => he x (List.mem_cons_of_mem kv hx)
    obtain ⟨hbetween, hcount⟩ := (headerText_adds hu hkv.2.1 hkv.2.2).1 .start (Or.inl rfl)
    rw [pending_start] at hcount
    rw [List.map_cons, List.flatten_cons, splice_append _ _ (headerText_last kv), lex_append]
    simp only [includeCount_append, List.length_cons]
    by_cases hs : (lex .start (splice (headerText upper kv))).2 = .start
    · -- this header is closed, and a later one is not
      have hlater : ∃ x ∈ items, reads (headerText upper x) = none := by
        obtain ⟨x, hx, hnone⟩ := hopen
        rcases List.mem_cons.mp hx with rfl | hx
        · rw [reads, if_pos ⟨hs, headerText_last x⟩] at hnone
          cases hnone
        · exact ⟨x, hx, hnone⟩
      have hlt := ih hrest hlater
      rw [hs]
      omega
    · have hblock := hbetween.resolve_left hs
      rw [pending_block hblock] at hcount
      cases items with
      | nil =>
        simp only [List.map_nil, List.flatten_nil, splice, lex, includeCount, List.filterMap_nil,
          List.countP_nil, List.length_nil] at hcount ⊢
        omega
      | cons k items =>
        have hk := hrest k List.mem_cons_self
        obtain ⟨hb, hc⟩ := (headerText_adds hu hk.2.1 hk.2.2).2 _ hblock
        obtain ⟨_, hcr⟩ := section_adds hu (fun x hx => hrest x (List.mem_cons_of_mem k hx)) _ hb
        rw [List.map_cons, List.flatten_cons, splice_append _ _ (headerText_last k), lex_append]
        simp only [includeCount_append, List.length_cons]
        omega

end Reading

section Reached
variable {δ : Type*} (repl : Str → δ) (cond : Table δ → Str → Bool) (upper : Str → Str)

def runHeaders (s : State δ) (hs : List (Str × Str)) : State δ :=
  run repl cond s (hs.flatMap (headerDirectives upper))

theorem runHeaders_append (s : State δ) (hs hs' : List (Str × Str)) :
    runHeaders repl cond upper s (hs ++ hs') =
      runHeaders repl cond upper (runHeaders repl cond upper s hs) hs' := by
  rw [runHeaders, List.flatMap_append, run_append]
  rfl

theorem runHeaders_cons (s : State δ) (h : Str × Str) (hs : List (Str × Str)) :
    runHeaders repl cond upper s (h :: hs) =
      runHeaders repl cond upper (runHeaders repl cond upper s [h]) hs :=
  runHeaders_append repl cond upper s [h] hs

variable {upper} {s : State δ}

theorem run_angle {h : Str × Str} (hq : quoted h.1 = false) (hf : s.frames = []) :
    runHeaders repl cond upper s [h] = { s with included := s.included ++ [operandOf h] } := by
  simp [runHeaders, headerDirectives, hq, run, step, live_of_frames hf]

theorem run_fresh {h : Str × Str} (hq : quoted h.1 = true) (hf : s.frames = [])
    (hn : testedName upper h.1 ≠ []) (ht : s.table (testedName upper h.1) = none) :
    ∃ v, runHeaders repl cond upper s [h] =
      { s.assign (testedName upper h.1) (some v) with
        included := s.included ++ [operandOf h] } := by
  have hd : directiveOf defineWord (guardRest upper h.1) = some (.define (testedName upper h.1)
      ((guardRest upper h.1).drop (testedName upper h.1).length)) := by
    rw [directiveOf, if_pos rfl]
    exact if_neg hn
  refine ⟨repl ((guardRest upper h.1).drop (testedName upper h.1).length), ?_⟩
  have hlive : (s.push true).live = true := by simp [State.push, State.live, hf]
  simp [runHeaders, headerDirectives, hq, hd, run, step, hn, ht, hlive, State.assign]
  simp [State.push, State.live, hf]

/-- A guard that is defined already or names no macro. -/
def Stale (upper : Str → Str) (s : State δ) (h : Str × Str) : Prop :=
  quoted h.1 = true ∧ (testedName upper h.1 = [] ∨ (s.table (testedName upper h.1)).isSome = true)

theorem run_stale {h : Str × Str} (hs : Stale upper s h) : runHeaders repl cond upper s [h] = s := by
  obtain ⟨hq, ht⟩ := hs
  have hsimple : ∀ d ∈ (directiveOf defineWord (guardRest upper h.1)).toList ++
      [.include_ (operandOf h)], d.simple = true := by
    intro d hd
    rw [directiveOf, if_pos rfl] at hd
    by_cases hl : lead (guardRest upper h.1) = []
    · simp only [hl, if_true, Option.toList_none, List.nil_append, List.mem_singleton] at hd
      rw [hd]
      rfl
    · simp only [hl, if_false, Option.toList_some, List.cons_append, List.nil_append,
        List.mem_cons, List.not_mem_nil, or_false] at hd
      obtain rfl | rfl := hd
      · rfl
      · rfl
  have hrun := run_unless repl cond (s := s) ht hsimple
  simpa [runHeaders, headerDirectives, hq] using hrun

theorem run_reached {h : Str × Str} (hf : s.frames = []) (hs : ¬ Stale upper s h) :
    ∃ T, runHeaders repl cond upper s [h] = ⟨T, [], s.included ++ [operandOf h]⟩ ∧
      (∀ n, (s.table n).isSome = true → (T n).isSome = true) ∧
      (quoted h.1 = true → (T (testedName upper h.1)).isSome = true) ∧
      ∀ n, (T n).isSome = true →
        (s.table n).isSome = true ∨ (quoted h.1 = true ∧ n = testedName upper h.1) := by
  cases hq : quoted h.1 with
  | false =>
    refine ⟨s.table, ?_, fun n hn => hn, fun hc => by simp at hc, fun n hn => Or.inl hn⟩
    rw [run_angle repl cond hq hf, ← hf]
  | true =>
    have hn : testedName upper h.1 ≠ [] := fun hc => hs ⟨hq, Or.inl hc⟩
    have ht : s.table (testedName upper h.1) = none := by
      cases hv : s.table (testedName upper h.1) with
      | none => rfl
      | some v => exact absurd ⟨hq, Or.inr (by simp [hv])⟩ hs
    obtain ⟨v, hv⟩ := run_fresh repl cond hq hf hn ht
    refine ⟨(s.assign (testedName upper h.1) (some v)).table, ?_, fun n hn => ?_, fun _ => ?_,
      fun n hn => ?_⟩
    · rw [hv, ← hf]
      rfl
    · by_cases he : n = testedName upper h.1
      · simp [State.assign, he]
      · simpa [State.assign, he] using hn
    · simp [State.assign]
    · by_cases he : n = testedName upper h.1
      · exact Or.inr ⟨rfl, he⟩
      · simp only [State.assign, he, if_false] at hn
        exact Or.inl hn

/-- What a run over the headers keeps: no conditional is open, no definition is lost, and at most
one include is reached for each header. -/
theorem runHeaders_kept (upper : Str → Str) (hf : s.frames = []) (hs : List (Str × Str)) :
    (runHeaders repl cond upper s hs).frames = [] ∧
      (∀ n, (s.table n).isSome = true →
        ((runHeaders repl cond upper s hs).table n).isSome = true) ∧
      (runHeaders repl cond upper s hs).included.length ≤ s.included.length + hs.length := by
  induction hs generalizing s with
  | nil => exact ⟨hf, fun n hn => hn, Nat.le_refl _⟩
  | cons h hs ih =>
    rw [runHeaders_cons]
    by_cases hst : Stale upper s h
    · rw [run_stale repl cond hst]
      obtain ⟨hf', ht, hl⟩ := ih hf
      refine ⟨hf', ht, ?_⟩
      rw [List.length_cons]
      omega
    · obtain ⟨T, hT, hkeep, _, _⟩ := run_reached repl cond hf hst
      rw [hT]
      obtain ⟨hf', ht, hl⟩ := ih (s := ⟨T, [], s.included ++ [operandOf h]⟩) rfl
      refine ⟨hf', fun n hn => ht n (hkeep n hn), ?_⟩
      simp only [List.length_append, List.length_cons, List.length_nil] at hl ⊢
      omega

theorem runHeaders_lost (hf : s.frames = []) {h : Str × Str} (hst : Stale upper s h) {hs : List (Str × Str)}
    (hm : h ∈ hs) :
    (runHeaders repl cond upper s hs).included.length < s.included.length + hs.length := by
  obtain ⟨before, after, rfl⟩ := List.append_of_mem hm
  obtain ⟨hf', ht, hl⟩ := runHeaders_kept repl cond upper hf before
  have hst' : Stale upper (runHeaders repl cond upper s before) h :=
    ⟨hst.1, hst.2.imp_right (ht _)⟩
  rw [runHeaders_append, runHeaders_cons, run_stale repl cond hst']
  have hl' := (runHeaders_kept repl cond upper hf' after).2.2
  simp only [List.length_append, List.length_cons]
  omega

theorem stale_after (hf : s.frames = []) {h h' : Str × Str} (hq : quoted h.1 = true)
    (hq' : quoted h'.1 = true) (he : testedName upper h.1 = testedName upper h'.1) :
    Stale upper (runHeaders repl cond upper s [h]) h' := by
  refine ⟨hq', ?_⟩
  rw [← he]
  by_cases hst : Stale upper s h
  · rw [run_stale repl cond hst]
    exact hst.2
  · obtain ⟨T, hT, _, hdef, _⟩ := run_reached repl cond hf hst
    rw [hT]
    exact Or.inr (hdef hq)

/-- Of two headers with one guard, one is not reached. -/
theorem runHeaders_shared (hf : s.frames = []) {hs : List (Str × Str)} {h h' : Str × Str} (hm : h ∈ hs)
    (hm' : h' ∈ hs) (hne : h ≠ h') (hq : quoted h.1 = true) (hq' : quoted h'.1 = true)
    (he : testedName upper h.1 = testedName upper h'.1) :
    (runHeaders repl cond upper s hs).included.length < s.included.length + hs.length := by
  induction hs generalizing s with
  | nil => simp at hm
  | cons k hs ih =>
    rw [runHeaders_cons]
    obtain ⟨hf', _, hl⟩ := runHeaders_kept repl cond upper hf [k]
    have hrest : (runHeaders repl cond upper (runHeaders repl cond upper s [k]) hs).included.length <
        (runHeaders repl cond upper s [k]).included.length + hs.length := by
      -- k is one of the two, and the other one follows; or both follow
      by_cases hk : h = k
      · have hin : h' ∈ hs := (List.mem_cons.mp hm').resolve_left (fun e => hne (hk.trans e.symm))
        exact runHeaders_lost repl cond hf' (hk ▸ stale_after repl cond hf hq hq' he) hin
      · have hin : h ∈ hs := (List.mem_cons.mp hm).resolve_left hk
        by_cases hk' : h' = k
        · exact runHeaders_lost repl cond hf' (hk' ▸ stale_after repl cond hf hq' hq he.symm) hin
        · exact ih hf' hin ((List.mem_cons.mp hm').resolve_left hk')
    simp only [List.length_cons, List.length_nil] at hl ⊢
    omega

theorem runHeaders_reached (hf : s.frames = []) {hs : List (Str × Str)} (hnd : hs.Nodup)
    (hfresh : ∀ h ∈ hs, ¬ Stale upper s h)
    (hdiff : ∀ h ∈ hs, ∀ h' ∈ hs, quoted h.1 = true → quoted h'.1 = true → h ≠ h' →
      testedName upper h.1 ≠ testedName upper h'.1) :
    (runHeaders repl cond upper s hs).included = s.included ++ hs.map operandOf := by
  induction hs generalizing s with
  | nil => simp [runHeaders, run]
  | cons h hs ih =>
    obtain ⟨hnot, hnd'⟩ := List.nodup_cons.mp hnd
    obtain ⟨T, hT, _, _, honly⟩ :=
      run_reached repl cond hf (hfresh h (by simp))
    have hfresh' : ∀ h' ∈ hs, ¬ Stale upper (⟨T, [], s.included ++ [operandOf h]⟩ : State δ) h' := by
      intro h' hm hst
      obtain ⟨hq', hst⟩ := hst
      cases hst with
      | inl hst => exact hfresh h' (by simp [hm]) ⟨hq', Or.inl hst⟩
      | inr hst =>
        cases honly _ hst with
        | inl hold => exact hfresh h' (by simp [hm]) ⟨hq', Or.inr hold⟩
        | inr hnew =>
          exact hdiff h' (by simp [hm]) h (by simp) hq' hnew.1 (fun e => hnot (e ▸ hm)) hnew.2
    rw [runHeaders_cons, hT, ih rfl hnd' hfresh' (fun a ha b hb => hdiff a (by simp [ha]) b
      (by simp [hb]))]
    simp

/-- The quoted headers have guards with the framework's ending, different ones for different
headers, exactly if every header is reached where no such macro is defined. -/
theorem runHeaders_all_iff (upper : Str → Str) {hs : List (Str × Str)} (hnd : hs.Nodup) :
    (∀ T : Table δ, (∀ n, frameworkText <:+ n → T n = none) →
        (runHeaders repl cond upper ⟨T, [], []⟩ hs).included = hs.map operandOf) ↔
      (∀ h ∈ hs, quoted h.1 = true → frameworkText <:+ testedName upper h.1) ∧
        ∀ h ∈ hs, ∀ h' ∈ hs, quoted h.1 = true → quoted h'.1 = true → h ≠ h' →
          testedName upper h.1 ≠ testedName upper h'.1 := by
  constructor
  · intro hall
    refine ⟨fun h hm hq => ?_, fun h hm h' hm' hq hq' hne he => ?_⟩
    · -- otherwise a table that defines only the tested macro hides the include
      by_contra hs'
      let T : Table δ := fun n => if n = testedName upper h.1 then some (repl []) else none
      have hT : ∀ n, frameworkText <:+ n → T n = none := by
        intro n hn
        have hne : n ≠ testedName upper h.1 := fun e => hs' (e ▸ hn)
        simp [T, hne]
      have hst : Stale upper (⟨T, [], []⟩ : State δ) h := ⟨hq, Or.inr (by simp [T])⟩
      have hlt := runHeaders_lost repl cond rfl hst hm
      rw [hall T hT] at hlt
      simp at hlt
    · have hlt := runHeaders_shared repl cond (s := ⟨fun _ => none, [], []⟩) rfl hm hm' hne hq hq' he
      rw [hall (fun _ => none) fun _ _ => rfl] at hlt
      simp at hlt
  · intro hcond T hT
    obtain ⟨hend, hdiff⟩ := hcond
    have hfresh : ∀ h ∈ hs, ¬ Stale upper (⟨T, [], []⟩ : State δ) h := by
      intro h hm hst
      obtain ⟨hq, hst⟩ := hst
      have hends := hend h hm hq
      cases hst with
      | inl hst =>
        rw [hst, List.suffix_nil] at hends
        exact absurd hends (by decide +kernel)
      | inr hst => simp [hT _ hends] at hst
    rw [runHeaders_reached repl cond rfl hnd hfresh hdiff]
    rfl

theorem preprocess_writeHeaders (hu : ∀ s, '\n' ∉ s → '\n' ∉ upper s)
    {headers : OrderedDict Str Str} (hr : ∀ kv ∈ headers.items, Entry kv)
    (hc : ∀ kv ∈ headers.items, quoted kv.1 = false → AngleClosed kv.1 kv.2) (T : Table δ) :
    preprocess repl cond T (writeHeaders upper headers) =
      runHeaders repl cond upper ⟨T, [], []⟩ headers.items := by
  rw [preprocess, directives_of_reads (reads_writeHeaders hu hr hc)]
  rfl

/-- A header that leaves a comment open costs one #include. -/
theorem included_lost (hu : ∀ s, '\n' ∉ s → '\n' ∉ upper s) {headers : OrderedDict Str Str}
    (hr : ∀ kv ∈ headers.items, Entry kv) {kv : Str × Str} (hm : kv ∈ headers.items)
    (hq : quoted kv.1 = false) (hc : ¬ AngleClosed kv.1 kv.2) (T : Table δ) :
    (preprocess repl cond T (writeHeaders upper headers)).included.length <
      headers.items.length := by
  have htext : headerText upper kv = angleCmd kv.1 ++ fromLines kv.2 := by
    rw [headerText, includeCmd, if_neg (by simp [hq])]
    rfl
  have hopen : reads (headerText upper kv) = none := by
    rw [htext]
    rwa [AngleClosed, Option.not_isSome_iff_eq_none] at hc
  have hlt := section_lost hu hr ⟨kv, hm, hopen⟩
  have hcount := count_directives (t := writeHeaders upper headers)
    (section_adds hu hr .start (Or.inl rfl)).1
  have hle := run_included_le repl cond ⟨T, [], []⟩ (directives (writeHeaders upper headers))
  rw [hcount, List.length_nil, Nat.zero_add] at hle
  exact hle.trans_lt hlt

end Reached

section Included
variable {δ : Type*} (repl : Str → δ) (cond : Table δ → Str → Bool) (upper : Str → Str)

/-- The quoted headers have different guards, and with no such macro predefined the include of
every header is reached. -/
def EveryHeaderIncluded (headers : OrderedDict Str Str) : Prop :=
  (∀ h ∈ headers.keys, ∀ h' ∈ headers.keys, quoted h = true → quoted h' = true → h ≠ h' →
    guardMacro upper h ≠ guardMacro upper h') ∧
  ∀ T : Table δ, (∀ n, frameworkText <:+ n → T n = none) →
    (preprocess repl cond T (writeHeaders upper headers)).included = headers.items.map operandOf

/-- '.', '/' and '-' are not told apart from '_'. -/
def fold (c : Char) : Char := if c = '.' ∨ c = '/' ∨ c = '-' then '_' else c

/-- The identifier that the last path component of a header begins with, up to case and fold. -/
def headerIdent (header : Str) : Str :=
  lead ((((upper ((header.splitOn '/').getLastD [])).map fold) ++ frameworkText).dropWhile blank)

theorem testedName_eq (header : Str) : testedName upper header = headerIdent upper header := by
  have hfold : ∀ s : Str, replace '-' '_' (replace '/' '_' (replace '.' '_' s)) = s.map fold := by
    intro s
    simp only [replace, List.map_map]
    apply List.map_congr_left
    intro c _
    by_cases h1 : c = '.'
    · simp [h1, fold]
    · by_cases h2 : c = '/'
      · simp [h2, fold]
      · simp [h1, h2, fold]
  rw [testedName, guardRest, guardMacro, hfold]
  rfl

/-- Every recorded header is included exactly if the <...> headers leave no comment open, the last
components of the quoted headers give identifiers with the framework's ending, and different
quoted headers different ones. -/
theorem every_header_included_iff {fs : FS} {cFiles : List Str} (hf : ∀ f ∈ cFiles, '\n' ∉ f)
    {g : GraphState} (hg : cFiles.foldlM (addDependsOn fs) .empty = .ok g)
    (hu : ∀ s, '\n' ∉ s → '\n' ∉ upper s) :
    EveryHeaderIncluded repl cond upper g.headers ↔
      (∀ kv ∈ g.headers.items, quoted kv.1 = false → AngleClosed kv.1 kv.2) ∧
      (∀ h ∈ g.headers.keys, quoted h = true → frameworkText <:+ headerIdent upper h) ∧
      ∀ h ∈ g.headers.keys, ∀ h' ∈ g.headers.keys, quoted h = true → quoted h' = true → h ≠ h' →
        headerIdent upper h ≠ headerIdent upper h' := by
  have hr := (recorded_of_calls hf hg).entry
  have hnd : g.headers.items.Nodup := g.headers.nodup.of_map
  have hkey : ∀ kv ∈ g.headers.items, kv.1 ∈ g.headers.keys := fun kv => List.mem_map_of_mem
  have hitem : ∀ h ∈ g.headers.keys, ∃ f, (h, f) ∈ g.headers.items := fun h hm => by
    obtain ⟨kv, hkv, rfl⟩ := List.mem_map.mp hm
    exact ⟨kv.2, hkv⟩
  simp only [← testedName_eq]
  constructor
  · intro hall
    have hc : ∀ kv ∈ g.headers.items, quoted kv.1 = false → AngleClosed kv.1 kv.2 := by
      intro kv hm hq
      by_contra hopen
      have hlt := included_lost repl cond hu hr hm hq hopen fun _ => none
      rw [hall.2 (fun _ => none) fun _ _ => rfl, List.length_map] at hlt
      omega
    obtain ⟨hend, hdiff⟩ := (runHeaders_all_iff repl cond upper hnd).mp fun T hT => by
      rw [← preprocess_writeHeaders repl cond hu hr hc T]
      exact hall.2 T hT
    refine ⟨hc, fun h hm hq => ?_, fun h hm h' hm' hq hq' hne => ?_⟩
    · obtain ⟨f, hkv⟩ := hitem h hm
      exact hend (h, f) hkv hq
    · obtain ⟨f, hkv⟩ := hitem h hm
      obtain ⟨f', hkv'⟩ := hitem h' hm'
      exact hdiff (h, f) hkv (h', f') hkv' hq hq' fun e => hne (Prod.mk.inj e).1
  · intro hcond
    obtain ⟨hc, hend, hdiff⟩ := hcond
    refine ⟨fun h hm h' hm' hq hq' hne he => ?_, fun T hT => ?_⟩
    · apply hdiff h hm h' hm' hq hq' hne
      rw [testedName, testedName, guardRest, guardRest, he]
    · rw [preprocess_writeHeaders repl cond hu hr hc T]
      have hends : ∀ kv ∈ g.headers.items, quoted kv.1 = true →
          frameworkText <:+ testedName upper kv.1 := fun kv hm => hend kv.1 (hkey kv hm)
      have hpairs : ∀ kv ∈ g.headers.items, ∀ kv' ∈ g.headers.items, quoted kv.1 = true →
          quoted kv'.1 = true → kv ≠ kv' → testedName upper kv.1 ≠ testedName upper kv'.1 :=
        fun kv hm kv' hm' hq hq' hne => hdiff kv.1 (hkey kv hm) kv'.1 (hkey kv' hm') hq hq'
          fun he => hne (List.inj_on_of_nodup_map g.headers.nodup hm hm' he)
      exact (runHeaders_all_iff repl cond upper hnd).mpr ⟨hends, hpairs⟩ T hT

end Included

def capitals : Str → Str := List.map Char.toUpper

theorem toUpper_newline {c : Char} (h : c.toUpper = '\n') : c = '\n' := by
  by_cases hl : 'a'.val ≤ c.val ∧ c.val ≤ 'z'.val
  · -- a letter stays above the control characters
    have hu : ∃ hv, c.toUpper = ⟨c.val + ('A'.val - 'a'.val), hv⟩ := ⟨_, dif_pos hl⟩
    obtain ⟨hv, hu⟩ := hu
    rw [h, Char.ext_iff] at hu
    have hd : 'A'.val - 'a'.val = 4294967264 := by decide
    have hn : '\n'.val = 10 := by decide
    have hlow : (97 : UInt32) ≤ c.val := hl.1
    have hhigh : c.val ≤ (122 : UInt32) := hl.2
    simp only [hd, hn] at hu
    grind
  · have hu : c.toUpper = c := dif_neg hl
    rwa [hu] at h

theorem capitals_oneLine (s : Str) (h : '\n' ∉ s) : '\n' ∉ capitals s := by
  intro hm
  obtain ⟨c, hc, he⟩ := List.mem_map.mp hm
  exact h (toUpper_newline he ▸ hc)

def plainFiles : FS :=
  filesOf [("a.c".toList, "#include \"net/x.h\"\n#include <linux/bpf.h>\\\n\n".toList)]

theorem every_header_included_plain :
    ∃ g, ["a.c".toList].foldlM (addDependsOn plainFiles) .empty = .ok g ∧
      g.headers.items = [("net/x.h".toList, "a.c".toList),
        ("<linux/bpf.h>\\".toList, "a.c".toList)] ∧
      EveryHeaderIncluded id (fun _ _ => false) capitals g.headers := by
  have hbuilt : ∃ g, ["a.c".toList].foldlM (addDependsOn plainFiles) .empty = .ok g ∧
      g.headers.items = [("net/x.h".toList, "a.c".toList),
        ("<linux/bpf.h>\\".toList, "a.c".toList)] := ⟨_, rfl, by decide +kernel⟩
  obtain ⟨g, hg, hk⟩ := hbuilt
  refine ⟨g, hg, hk, (every_header_included_iff id (fun _ _ => false) capitals
    (by decide +kernel) hg capitals_oneLine).mpr ?_⟩
  rw [OrderedDict.keys, hk]
  decide +kernel

def sharedFiles : FS :=
  filesOf [("a.c".toList, "#include \"a/x.h\"\n#include \"b/x.h\"\n".toList)]

/-- Both headers get the guard X_H_OPENED_FRAMEWORK, and the second is not included. -/
theorem shared_guard_lost :
    ∃ g, ["a.c".toList].foldlM (addDependsOn sharedFiles) .empty = .ok g ∧
      g.headers.keys = ["a/x.h".toList, "b/x.h".toList] ∧
      guardMacro capitals "a/x.h".toList = guardMacro capitals "b/x.h".toList ∧
      (preprocess id (fun _ _ => false) (fun _ => none) (writeHeaders capitals g.headers)).included =
        ["\"a/x.h\"".toList] ∧
      ¬ EveryHeaderIncluded (id : Str → Str) (fun _ _ => false) capitals g.headers := by
  refine ⟨_, rfl, by decide +kernel, by decide +kernel, by decide +kernel, fun hall => ?_⟩
  exact hall.1 "a/x.h".toList (by decide +kernel) "b/x.h".toList (by decide +kernel)
    (by decide +kernel) (by decide +kernel) (by decide +kernel) (by decide +kernel)

end OpenedExtraction.Headers
