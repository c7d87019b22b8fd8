import OpenedExtraction.CppLines

/-! A text as a list of physical lines, each read from the start of a logical line or from inside
a comment that is still open. -/
namespace OpenedExtraction.Cpp
open OpenedExtraction.PyText

def rows (ps : List Str) : Str := (ps.map fun p => p ++ ['\n']).flatten

theorem rows_cons (p : Str) (ps : List Str) : rows (p :: ps) = p ++ ['\n'] ++ rows ps := rfl

theorem splice_row {p : Str} (hp : '\n' ∉ p) (hlast : p.getLast? ≠ some '\\') (t : Str) :
    splice (p ++ ['\n'] ++ t) = p ++ ['\n'] ++ splice t := by
  rw [splice_append _ _ (by rw [List.getLast?_append]; simp), splice_line p hp hlast]

theorem lex_row (s : Lex) {p : Str} (h : '\n' ∉ p) :
    (∃ cur, lex s (p ++ ['\n']) = ([], ⟨.block, cur⟩)) ∨
      ∃ l, lex s (p ++ ['\n']) = ([l], .start) := by
  have hcut : lex s (p ++ ['\n']) = lex (lex s p).2 ['\n'] := by
    rw [lex_append, (lex_inside s h).1]
    rfl
  have hone : ∀ s' : Lex, lex s' ['\n'] = lexChar s' '\n' := fun s' => by simp [lex]
  rw [hcut, hone]
  by_cases hb : (lex s p).2.mode = .block
  · exact Or.inl ⟨(lex s p).2.cur, by simp [lexChar, hb]⟩
  · by_cases hst : (lex s p).2.mode = .star
    · exact Or.inl ⟨(lex s p).2.cur, by simp [lexChar, hst]⟩
    · exact Or.inr (lexChar_newline hb hst)

theorem lex_commented {s : Lex} (hs : s.mode = .block ∨ s.mode = .star) {t : Str} (ht : '/' ∉ t) :
    ∃ m, (m = .block ∨ m = .star) ∧ lex s t = ([], ⟨m, s.cur⟩) := by
  induction t generalizing s with
  | nil => exact ⟨s.mode, hs, rfl⟩
  | cons c t ih =>
    simp only [List.mem_cons, not_or] at ht
    have hc : ∃ m, (m = .block ∨ m = .star) ∧ lexChar s c = ([], ⟨m, s.cur⟩) := by
      by_cases hstar : c = '*'
      · exact ⟨.star, Or.inr rfl, by rcases hs with hs | hs <;> simp [lexChar, hs, hstar]⟩
      · refine ⟨.block, Or.inl rfl, ?_⟩
        rcases hs with hs | hs <;> simp [lexChar, hs, hstar, Ne.symm ht.1]
    obtain ⟨m, hm, hc⟩ := hc
    obtain ⟨m', hm', hl⟩ := ih (s := ⟨m, s.cur⟩) hm ht.2
    exact ⟨m', hm', by rw [lex_skip hc, hl]⟩

theorem lex_row_commented {s : Lex} (hs : s.mode = .block) {p : Str} (hp : '/' ∉ p) :
    lex s (p ++ ['\n']) = ([], ⟨.block, s.cur⟩) := by
  obtain ⟨m, hm, hl⟩ := lex_commented (Or.inl hs) hp
  rw [lex_append, hl]
  rcases hm with rfl | rfl <;> simp [lex, lexChar]

/-- A line that is one logical line without a directive. -/
def SilentRow (p : Str) : Prop :=
  '\n' ∉ p ∧ ∃ l, lex .start (p ++ ['\n']) = ([l], .start) ∧ directive l = none

theorem silentRow_nil : SilentRow [] := ⟨by simp, [], rfl, rfl⟩

theorem silentRow_comment {t : Str} (ht : '\n' ∉ t) : SilentRow ('/' :: '/' :: t) := by
  refine ⟨by simp [ht], [' '], ?_, by decide⟩
  have hs1 : lexChar .start '/' = ([], ⟨.slash, []⟩) := rfl
  have hs2 : lexChar ⟨.slash, []⟩ '/' = ([], ⟨.lineComment, []⟩) := rfl
  rw [List.cons_append, lex_skip hs1, List.cons_append, lex_skip hs2]
  exact lex_lineComment [] t [] ht

theorem lex_silent {ps : List Str} (h : ∀ p ∈ ps, SilentRow p) :
    ∃ ls, lex .start (rows ps) = (ls, .start) ∧ ls.filterMap directive = [] := by
  induction ps with
  | nil => exact ⟨[], rfl, rfl⟩
  | cons p ps ih =>
    obtain ⟨_, l, hl, hd⟩ := h p List.mem_cons_self
    obtain ⟨ls, hls, hds⟩ := ih fun q hq => h q (List.mem_cons_of_mem p hq)
    exact ⟨l :: ls, by rw [rows_cons, lex_append, hl, hls]; rfl, by simp [hd, hds]⟩

/-- After an open line they keep it open, or end it and add no directive. -/
theorem lex_silent_open {ps : List Str} (h : ∀ p ∈ ps, SilentRow p) {s : Lex}
    (hs : s.mode = .block) :
    ((lex s (rows ps)).1 = [] ∧ (lex s (rows ps)).2.mode = .block) ∨
      ∃ l ls, lex s (rows ps) = (l :: ls, .start) ∧ ls.filterMap directive = [] := by
  induction ps generalizing s with
  | nil => exact Or.inl ⟨rfl, hs⟩
  | cons p ps ih =>
    have hps : ∀ q ∈ ps, SilentRow q := fun q hq => h q (List.mem_cons_of_mem p hq)
    rw [rows_cons, lex_append]
    obtain ⟨cur, hl⟩ | ⟨l, hl⟩ := lex_row s (h p List.mem_cons_self).1
    · rw [hl]
      exact ih hps rfl
    · obtain ⟨ls, hls, hds⟩ := lex_silent hps
      rw [hl, hls]
      exact Or.inr ⟨l, ls, rfl, hds⟩

theorem splice_comment_blank {t : Str} (ht : '\n' ∉ t) :
    ∃ p ps, splice ('/' :: '/' :: t ++ ['\n'] ++ ['\n']) = rows (p :: ps) ∧
      ∀ q ∈ p :: ps, SilentRow q := by
  by_cases hlast : t.getLast? = some '\\'
  · obtain ⟨u, rfl⟩ := List.getLast?_eq_some_iff.mp hlast
    have hu : '\n' ∉ u := fun hm => ht (by simp [hm])
    refine ⟨'/' :: '/' :: u, [], ?_, by simpa using silentRow_comment hu⟩
    have he : '/' :: '/' :: (u ++ ['\\']) ++ ['\n'] ++ ['\n'] =
        ('/' :: '/' :: u) ++ '\\' :: '\n' :: ['\n'] := by simp
    rw [he, splice_joined _ _ (by simp [hu])]
    exact (List.append_nil _).symm
  · refine ⟨'/' :: '/' :: t, [[]], ?_, by simpa using ⟨silentRow_comment ht, silentRow_nil⟩⟩
    have hl : ('/' :: '/' :: t).getLast? ≠ some '\\' :=
      getLast?_append_cons_ne ['/'] (by decide) hlast
    rw [splice_append _ _ (by rw [List.getLast?_append]; simp), splice_line _ (by simp [ht]) hl]
    rfl

theorem reads_silent {t : Str} {ps : List Str} (ht : splice t = rows ps)
    (h : ∀ p ∈ ps, SilentRow p) (hlast : t.getLast? ≠ some '\\') : reads t = some [] := by
  obtain ⟨ls, hl, hd⟩ := lex_silent h
  exact (reads_iff t []).mpr ⟨⟨ls, by rw [ht, hl], hd⟩, hlast⟩

/-- A line and lines without directives: if it is closed, the directive at its head is the only
one. -/
theorem reads_head {t p : Str} {ps : List Str} (ht : splice t = rows (p :: ps)) (hp : '\n' ∉ p)
    (hps : ∀ q ∈ ps, SilentRow q) {ds : List Directive} (h : reads t = some ds) :
    ds = (lineDirective t).toList := by
  obtain ⟨⟨ls, hl, hd⟩, _⟩ := (reads_iff t ds).mp h
  have hfirst : ∃ l ls', ls = l :: ls' ∧ ls'.filterMap directive = [] := by
    rw [ht, rows_cons, lex_append] at hl
    obtain ⟨cur, hrow⟩ | ⟨l, hrow⟩ := lex_row .start hp
    · rw [hrow] at hl
      obtain ⟨_, hopen⟩ | ⟨l, ls', hrest, hds⟩ := lex_silent_open hps (s := ⟨.block, cur⟩) rfl
      · rw [(Prod.mk.inj hl).2] at hopen
        cases hopen
      · rw [hrest] at hl
        exact ⟨l, ls', (Prod.mk.inj hl).1.symm, hds⟩
    · obtain ⟨ls', hrest, hds⟩ := lex_silent hps
      rw [hrow, hrest] at hl
      exact ⟨l, ls', (Prod.mk.inj hl).1.symm, hds⟩
  obtain ⟨l, ls', rfl, hds⟩ := hfirst
  have hcode : codeText t = l := by
    rw [codeText, firstLine, lex_append, hl]
    rfl
  rw [lineDirective, hcode, ← hd]
  cases hdir : directive l <;> simp [hdir, hds]

def Directive.isInclude : Directive → Bool
  | .include_ _ => true
  | _ => false

def includeCount (ls : List Str) : Nat := (ls.filterMap directive).countP Directive.isInclude

theorem includeCount_append (ls ls' : List Str) :
    includeCount (ls ++ ls') = includeCount ls + includeCount ls' := by
  simp [includeCount]

theorem includeCount_one (l : Str) : includeCount [l] ≤ 1 := by
  rw [includeCount]
  refine List.countP_le_length.trans ?_
  exact List.length_filterMap_le directive [l]

/-- Between two physical lines the lexer is at the start of a logical line, or in a comment. -/
def Lex.Between (s : Lex) : Prop := s = .start ∨ s.mode = .block

/-- A line that is still open counts as one that may become an #include. -/
def Lex.pending (s : Lex) : Nat := if s = .start then 0 else 1

theorem pending_block {s : Lex} (h : s.mode = .block) : s.pending = 1 := by
  refine if_neg fun he => ?_
  rw [he] at h
  cases h

theorem pending_start : Lex.start.pending = 0 := rfl

/-- From any state between two lines, the text adds at most n #includes and open lines. -/
def Adds (n : Nat) (t : Str) : Prop :=
  ∀ s : Lex, s.Between → (lex s t).2.Between ∧
    includeCount (lex s t).1 + (lex s t).2.pending ≤ s.pending + n

/-- From inside a comment it adds none. -/
def Absorbed (t : Str) : Prop :=
  ∀ s : Lex, s.mode = .block → (lex s t).2.Between ∧
    includeCount (lex s t).1 + (lex s t).2.pending ≤ 1

theorem adds_nil : Adds 0 [] := fun s hs => ⟨hs, by simp [lex, includeCount]⟩

theorem Adds.append {m n : Nat} {a b : Str} (ha : Adds m a) (hb : Adds n b) :
    Adds (m + n) (a ++ b) := by
  intro s hs
  obtain ⟨h1, hc1⟩ := ha s hs
  obtain ⟨h2, hc2⟩ := hb _ h1
  rw [lex_append]
  refine ⟨h2, ?_⟩
  simp only [includeCount_append]
  omega

theorem Absorbed.append {a b : Str} (ha : Absorbed a) (hb : Adds 0 b) : Absorbed (a ++ b) := by
  intro s hs
  obtain ⟨h1, hc1⟩ := ha s hs
  obtain ⟨h2, hc2⟩ := hb _ h1
  rw [lex_append]
  refine ⟨h2, ?_⟩
  simp only [includeCount_append]
  omega

theorem row_bound (s : Lex) {p : Str} (hp : '\n' ∉ p) :
    (lex s (p ++ ['\n'])).2.Between ∧
      includeCount (lex s (p ++ ['\n'])).1 + (lex s (p ++ ['\n'])).2.pending ≤ 1 := by
  obtain ⟨cur, hl⟩ | ⟨l, hl⟩ := lex_row s hp
  · rw [hl]
    exact ⟨Or.inr rfl, by rw [pending_block rfl]; simp [includeCount]⟩
  · rw [hl]
    exact ⟨Or.inl rfl, includeCount_one l⟩

theorem adds_row {p : Str} (hp : '\n' ∉ p) : Adds 1 (p ++ ['\n']) := by
  intro s _
  obtain ⟨hb, hc⟩ := row_bound s hp
  exact ⟨hb, hc.trans (Nat.le_add_left 1 s.pending)⟩

theorem absorbed_row {p : Str} (hp : '\n' ∉ p) : Absorbed (p ++ ['\n']) := fun s _ => row_bound s hp

def QuietRow (p : Str) : Prop :=
  '\n' ∉ p ∧ ∃ l, lex .start (p ++ ['\n']) = ([l], .start) ∧ includeCount [l] = 0

theorem SilentRow.quiet {p : Str} (h : SilentRow p) : QuietRow p := by
  obtain ⟨hn, l, hl, hd⟩ := h
  exact ⟨hn, l, hl, by simp [includeCount, hd]⟩

theorem quietRow_word {word rest : Str} (hw : ∀ c ∈ word, identChar c = true) (hne : word ≠ [])
    (hs : '/' ∉ '#' :: word ++ ' ' :: rest) (hn : '\n' ∉ '#' :: word ++ ' ' :: rest)
    (hd : ∀ r, ∀ d ∈ directiveOf word r, d.isInclude = false) :
    QuietRow ('#' :: word ++ ' ' :: rest) := by
  refine ⟨hn, _, lex_verbatim rfl [] _ hs hn, ?_⟩
  rw [includeCount, List.countP_eq_zero]
  intro d hm
  obtain ⟨l, hl, hdl⟩ := List.mem_filterMap.mp hm
  rw [List.mem_singleton.mp hl, List.nil_append, List.cons_append,
    directive_hash hw hne (stop_cons (by decide) _)] at hdl
  simp [hd _ d hdl]

theorem QuietRow.adds {p : Str} (h : QuietRow p) : Adds 0 (p ++ ['\n']) := by
  obtain ⟨hn, l, hl, hd⟩ := h
  intro s hs
  rcases hs with rfl | hs
  · rw [hl, hd]
    exact ⟨Or.inl rfl, Nat.le_refl 0⟩
  · rw [pending_block hs]
    exact row_bound s hn

theorem adds_quiet {ps : List Str} (h : ∀ p ∈ ps, QuietRow p) : Adds 0 (rows ps) := by
  induction ps with
  | nil => exact adds_nil
  | cons p ps ih =>
    rw [rows_cons]
    exact (h p List.mem_cons_self).adds.append (ih fun q hq => h q (List.mem_cons_of_mem p hq))

theorem Absorbed.after {ps : List Str} (h : ∀ p ∈ ps, '/' ∉ p) {t : Str} (ht : Absorbed t) :
    Absorbed (rows ps ++ t) := by
  induction ps with
  | nil => exact ht
  | cons p ps ih =>
    intro s hs
    have hrest := ih fun q hq => h q (List.mem_cons_of_mem p hq)
    rw [rows_cons, List.append_assoc, lex_append, lex_row_commented hs (h p List.mem_cons_self)]
    exact hrest ⟨.block, s.cur⟩ rfl

theorem count_directives {t : Str} (h : (lex .start (splice t)).2.Between) :
    (directives t).countP Directive.isInclude = includeCount (lex .start (splice t)).1 := by
  have hend : includeCount (lex (lex .start (splice t)).2 ['\n']).1 = 0 := by
    rcases h with h | h
    · rw [h]
      rfl
    · have hl := lex_row_commented h (p := []) (by simp)
      rw [List.nil_append] at hl
      rw [hl]
      rfl
  have hsplit : (directives t).countP Directive.isInclude =
      includeCount (lex .start (splice t ++ ['\n'])).1 := rfl
  rw [hsplit, lex_append, includeCount_append, hend, Nat.add_zero]

theorem run_included_le {δ : Type*} (repl : Str → δ) (cond : Table δ → Str → Bool) (s : State δ)
    (ds : List Directive) :
    (run repl cond s ds).included.length ≤ s.included.length + ds.countP Directive.isInclude := by
  induction ds generalizing s with
  | nil => exact Nat.le_refl _
  | cons d ds ih =>
    have hstep : (step repl cond s d).included.length ≤
        s.included.length + if d.isInclude then 1 else 0 := by
      cases d with
      | include_ o =>
        rw [step]
        split <;> simp [Directive.isInclude]
      | elif e | else_ => cases hf : s.frames <;> simp [step, State.switch, hf]
      | define n r | undef n =>
        rw [step]
        split <;> simp [State.assign]
      | ifdef n | ifndef n | ifTrue e | endif => simp [step, State.push]
    have hrun : run repl cond s (d :: ds) = run repl cond (step repl cond s d) ds := rfl
    have hcount : (d :: ds).countP Directive.isInclude =
        ds.countP Directive.isInclude + if d.isInclude then 1 else 0 := List.countP_cons
    have hih := ih (step repl cond s d)
    rw [hrun, hcount]
    omega

end OpenedExtraction.Cpp
