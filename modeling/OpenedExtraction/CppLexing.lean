import OpenedExtraction.Cpp

/-! How the lexer of a C preprocessor reads one line of text. -/
namespace OpenedExtraction.Cpp
open OpenedExtraction.PyText

def plain (c : Char) : Bool := decide (c ∉ ['\n', '/', '"', '\x27'])

theorem plain_of_identChar {c : Char} (h : identChar c = true) : plain c = true := by
  have hn : ['\n', '/', '"', '\x27'].all (fun d => !identChar d) = true := by decide
  rw [plain, decide_eq_true_eq]
  intro hm
  have hc := List.all_eq_true.mp hn c hm
  simp [h] at hc

theorem lex_plain (cur t rest : Str) (h : ∀ c ∈ t, plain c = true) :
    lex ⟨.code, cur⟩ (t ++ rest) = lex ⟨.code, cur ++ t⟩ rest := by
  induction t generalizing cur with
  | nil => simp
  | cons c t ih =>
    have hc := h c (by simp)
    simp only [plain, List.mem_cons, List.not_mem_nil, or_false, not_or, decide_eq_true_eq] at hc
    have hl : lexChar ⟨.code, cur⟩ c = ([], ⟨.code, cur ++ [c]⟩) := by
      simp [lexChar, lexCode, hc]
    rw [List.cons_append, lex, hl, ih (cur ++ [c]) fun x hx => h x (by simp [hx])]
    simp

theorem lexChar_newline {s : Lex} (hb : s.mode ≠ .block) (hst : s.mode ≠ .star) :
    ∃ l, lexChar s '\n' = ([l], .start) := by
  obtain ⟨mode, cur⟩ := s
  cases mode with
  | block => exact absurd rfl hb
  | star => exact absurd rfl hst
  | slash => exact ⟨cur ++ ['/'], rfl⟩
  | lineComment => exact ⟨cur ++ [' '], rfl⟩
  | code | str | strEsc | chr | chrEsc => exact ⟨cur, rfl⟩

/-- What one character does to the current line is the same whatever has been read of it; only
a line feed may end the line. -/
theorem lexChar_frame (m : Mode) (cur : Str) (c : Char) :
    (c = '\n' ∧ ∃ x, lexChar ⟨m, cur⟩ c = ([cur ++ x], .start) ∧
        lexChar ⟨m, []⟩ c = ([x], .start)) ∨
      ∃ m' x, lexChar ⟨m, cur⟩ c = ([], ⟨m', cur ++ x⟩) ∧ lexChar ⟨m, []⟩ c = ([], ⟨m', x⟩) := by
  have hcode : ∀ y : Str,
      (c = '\n' ∧ ∃ x, lexCode (cur ++ y) c = ([cur ++ x], .start) ∧
          lexCode y c = ([x], .start)) ∨
        ∃ m' x, lexCode (cur ++ y) c = ([], ⟨m', cur ++ x⟩) ∧ lexCode y c = ([], ⟨m', x⟩) := by
    intro y
    unfold lexCode
    split_ifs with h <;> simp [h]
  have hquoted : ∀ (q : Char) (i e : Mode),
      (c = '\n' ∧ ∃ x, lexQuoted q i e cur c = ([cur ++ x], .start) ∧
          lexQuoted q i e [] c = ([x], .start)) ∨
        ∃ m' x, lexQuoted q i e cur c = ([], ⟨m', cur ++ x⟩) ∧
          lexQuoted q i e [] c = ([], ⟨m', x⟩) := by
    intro q i e
    unfold lexQuoted
    split_ifs with h <;> simp [h]
  have hescaped : ∀ i : Mode,
      (c = '\n' ∧ ∃ x, lexEscaped i cur c = ([cur ++ x], .start) ∧
          lexEscaped i [] c = ([x], .start)) ∨
        ∃ m' x, lexEscaped i cur c = ([], ⟨m', cur ++ x⟩) ∧
          lexEscaped i [] c = ([], ⟨m', x⟩) := by
    intro i
    unfold lexEscaped
    split_ifs with h <;> simp [h]
  cases m with
  | code => simpa [lexChar] using hcode []
  | slash =>
    simp only [lexChar]
    split_ifs
    · simp
    · simp
    · exact hcode ['/']
  | lineComment =>
    simp only [lexChar]
    split_ifs with h <;> simp [h]
  | block => simp [lexChar]
  | star =>
    simp only [lexChar]
    split_ifs <;> simp
  | str => exact hquoted _ _ _
  | chr => exact hquoted _ _ _
  | strEsc => exact hescaped _
  | chrEsc => exact hescaped _

theorem lexChar_cur (s : Lex) (c : Char) :
    ((lexChar s c).1 = [] ∧ s.cur <+: (lexChar s c).2.cur) ∨
      (c = '\n' ∧ ∃ l, (lexChar s c).1 = [l] ∧ s.cur <+: l) := by
  cases lexChar_frame s.mode s.cur c with
  | inl h =>
    obtain ⟨hc, x, hx, _⟩ := h
    exact Or.inr ⟨hc, s.cur ++ x, by rw [hx], List.prefix_append s.cur x⟩
  | inr h =>
    obtain ⟨m', x, hx, _⟩ := h
    rw [hx]
    exact Or.inl ⟨rfl, List.prefix_append s.cur x⟩

/-- The first logical line of a text, or what there is of it. -/
def firstLine (s : Lex) (t : Str) : Str := ((lex s t).1.head?).getD (lex s t).2.cur

theorem firstLine_cur (m : Mode) (cur t : Str) :
    firstLine ⟨m, cur⟩ t = cur ++ firstLine ⟨m, []⟩ t := by
  induction t generalizing m cur with
  | nil => simp [firstLine, lex]
  | cons c t ih =>
    cases lexChar_frame m cur c with
    | inl h =>
      obtain ⟨_, x, hx, hx'⟩ := h
      simp [firstLine, lex, hx, hx']
    | inr h =>
      obtain ⟨m', x, hx, hx'⟩ := h
      have h1 : firstLine ⟨m, cur⟩ (c :: t) = firstLine ⟨m', cur ++ x⟩ t := by
        simp [firstLine, lex, hx]
      have h2 : firstLine ⟨m, []⟩ (c :: t) = firstLine ⟨m', x⟩ t := by
        simp [firstLine, lex, hx']
      rw [h1, h2, ih m' (cur ++ x), ih m' x, List.append_assoc]

theorem lex_inside (s : Lex) {t : Str} (h : '\n' ∉ t) :
    (lex s t).1 = [] ∧ s.cur <+: (lex s t).2.cur := by
  induction t generalizing s with
  | nil => exact ⟨rfl, List.prefix_rfl⟩
  | cons c t ih =>
    simp only [List.mem_cons, not_or] at h
    cases lexChar_cur s c with
    | inl hc =>
      obtain ⟨h1, h2⟩ := ih (lexChar s c).2 h.2
      exact ⟨by simp [lex, hc.1, h1], hc.2.trans h2⟩
    | inr hc => exact absurd hc.1.symm h.1

theorem lex_skip {s s' : Lex} {c : Char} (h : lexChar s c = ([], s')) (t : Str) :
    lex s (c :: t) = lex s' t := by
  simp [lex, h]

theorem lex_lineComment (cur t rest : Str) (h : '\n' ∉ t) :
    lex ⟨.lineComment, cur⟩ (t ++ '\n' :: rest) =
      ((cur ++ [' ']) :: (lex .start rest).1, (lex .start rest).2) := by
  induction t with
  | nil => simp [lex, lexChar]
  | cons c t ih =>
    simp only [List.mem_cons, not_or] at h
    have hc : lexChar ⟨.lineComment, cur⟩ c = ([], ⟨.lineComment, cur⟩) := by
      simp [lexChar, Ne.symm h.1]
    rw [List.cons_append, lex, hc, ih h.2]
    simp

/-- No identifier goes on at the start of the text. -/
def Stop (t : Str) : Prop := ∀ c ∈ t.head?, identChar c = false

theorem stop_cons {c : Char} (h : identChar c = false) (t : Str) : Stop (c :: t) := by
  simpa [Stop] using h

end OpenedExtraction.Cpp
