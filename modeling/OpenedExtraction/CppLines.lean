import OpenedExtraction.CppLexing
import Mathlib.Data.List.TakeWhile

/-! How a C preprocessor reads a directive that stands on one line. -/
namespace OpenedExtraction.Cpp
open OpenedExtraction.PyText

theorem blank_of_identChar {c : Char} (h : identChar c = true) : blank c = false := by
  have hn : [' ', '\t', '\x0b', '\x0c'].all (fun d => !identChar d) = true := by decide
  rw [blank, decide_eq_false_iff_not]
  intro hm
  have hc := List.all_eq_true.mp hn c hm
  simp [h] at hc

theorem takeWhile_stop {w t : Str} (hw : ∀ c ∈ w, identChar c = true) (ht : Stop t) :
    (w ++ t).takeWhile identChar = w := by
  rw [List.takeWhile_append_of_pos hw]
  cases t with
  | nil => simp
  | cons c cs =>
    have hc : identChar c = false := ht c rfl
    simp [hc]

theorem directiveOf_ifdef (rest : Str) :
    directiveOf ifdefWord rest = some (.ifdef (lead rest)) := rfl

theorem directiveOf_ifndef (rest : Str) :
    directiveOf ifndefWord rest = some (.ifndef (lead rest)) := rfl

theorem directiveOf_if (rest : Str) : directiveOf ifWord rest = some (.ifTrue rest) := rfl

theorem directiveOf_elif (rest : Str) : directiveOf elifWord rest = some (.elif rest) := rfl

theorem directive_hash {word rest : Str} (hw : ∀ c ∈ word, identChar c = true) (hne : word ≠ [])
    (hr : Stop rest) :
    directive ('#' :: (word ++ rest)) = directiveOf word (rest.dropWhile blank) := by
  cases word with
  | nil => exact absurd rfl hne
  | cons c cs =>
    have hb : blank c = false := blank_of_identChar (hw c (by simp))
    have h1 : ('#' :: (c :: cs ++ rest)).dropWhile blank = '#' :: (c :: cs ++ rest) := by
      rw [List.dropWhile_cons_of_neg (by decide)]
    have h2 : (c :: cs ++ rest).dropWhile blank = c :: cs ++ rest := by
      rw [List.cons_append, List.dropWhile_cons_of_neg (by simp [hb])]
    rw [directive, h1]
    simp only [if_true, h2, afterHash, takeWhile_stop hw hr, List.drop_left]

theorem getLast?_append_cons_ne (a : Str) {b : Str} {c d : Char} (hd : d ≠ c)
    (h : b.getLast? ≠ some c) : (a ++ d :: b).getLast? ≠ some c := by
  rw [List.getLast?_append, List.getLast?_cons]
  cases hb : b.getLast? with
  | none => simpa using hd
  | some e =>
    rw [hb] at h
    simpa using h

theorem reads_line {b l : Str} (hb : '\n' ∉ b) (hlast : b.getLast? ≠ some '\\')
    (hl : lex .start (b ++ ['\n']) = ([l], .start)) :
    reads (b ++ ['\n']) = some (directive l).toList := by
  refine (reads_iff _ _).mpr ⟨⟨[l], by rw [splice_line b hb hlast, hl], ?_⟩, by simp⟩
  cases hd : directive l <;> simp [hd]

theorem reads_newline : reads ['\n'] = some [] := rfl

theorem reads_lineComment (code t : Str) (hc : ∀ c ∈ code, plain c = true) (ht : '\n' ∉ t)
    (hlast : ('/' :: t).getLast? ≠ some '\\') :
    reads (code ++ '/' :: '/' :: t ++ ['\n']) = some (directive (code ++ [' '])).toList := by
  have hcode : '\n' ∉ code := fun hm => by
    have := hc '\n' hm
    revert this
    decide
  have hs1 : lexChar ⟨.code, code⟩ '/' = ([], ⟨.slash, code⟩) := by simp [lexChar, lexCode]
  have hs2 : lexChar ⟨.slash, code⟩ '/' = ([], ⟨.lineComment, code⟩) := by simp [lexChar]
  refine reads_line (by simp [hcode, ht]) ?_ ?_
  · exact getLast?_append_cons_ne code (by decide) hlast
  · rw [List.append_assoc, Lex.start, lex_plain [] code _ hc, List.nil_append, List.cons_append,
      lex_skip hs1, List.cons_append, lex_skip hs2]
    exact lex_lineComment code t [] ht

def Mode.keeps : Mode → Bool
  | .code | .str | .strEsc | .chr | .chrEsc => true
  | _ => false

theorem lexQuoted_keeps (q : Char) {m e : Mode} (hm : m.keeps = true) (he : e.keeps = true)
    (cur : Str) {c : Char} (hn : c ≠ '\n') :
    ∃ m', lexQuoted q m e cur c = ([], ⟨m', cur ++ [c]⟩) ∧ m'.keeps = true := by
  by_cases h1 : c = q
  · exact ⟨.code, by rw [lexQuoted, if_neg hn, if_pos h1], rfl⟩
  · by_cases h2 : c = '\\'
    · exact ⟨e, by rw [lexQuoted, if_neg hn, if_neg h1, if_pos h2], he⟩
    · exact ⟨m, by rw [lexQuoted, if_neg hn, if_neg h1, if_neg h2], hm⟩

theorem lexChar_keeps {m : Mode} (hm : m.keeps = true) (cur : Str) {c : Char} (hn : c ≠ '\n')
    (hs : c = '/' → m ≠ .code) :
    ∃ m', lexChar ⟨m, cur⟩ c = ([], ⟨m', cur ++ [c]⟩) ∧ m'.keeps = true := by
  cases m with
  | code =>
    have h1 : c ≠ '/' := fun h => hs h rfl
    by_cases h2 : c = '"'
    · exact ⟨.str, by simp [lexChar, lexCode, h2], rfl⟩
    · by_cases h3 : c = '\x27'
      · exact ⟨.chr, by simp [lexChar, lexCode, h3], rfl⟩
      · exact ⟨.code, by simp [lexChar, lexCode, hn, h1, h2, h3], rfl⟩
  | str => exact lexQuoted_keeps _ rfl rfl cur hn
  | chr => exact lexQuoted_keeps _ rfl rfl cur hn
  | strEsc => exact ⟨.str, by simp [lexChar, lexEscaped, hn], rfl⟩
  | chrEsc => exact ⟨.chr, by simp [lexChar, lexEscaped, hn], rfl⟩
  | slash | lineComment | block | star => cases hm

theorem lexChar_end {m : Mode} (hm : m.keeps = true) (cur : Str) :
    lexChar ⟨m, cur⟩ '\n' = ([cur], .start) := by
  cases m with
  | code | str | strEsc | chr | chrEsc => rfl
  | slash | lineComment | block | star => cases hm

theorem lex_verbatim {m : Mode} (hm : m.keeps = true) (cur t : Str) (hs : '/' ∉ t)
    (hn : '\n' ∉ t) : lex ⟨m, cur⟩ (t ++ ['\n']) = ([cur ++ t], .start) := by
  induction t generalizing m cur with
  | nil => simp [lex, lexChar_end hm]
  | cons c t ih =>
    simp only [List.mem_cons, not_or] at hs hn
    obtain ⟨m', hc, hm'⟩ := lexChar_keeps hm cur (Ne.symm hn.1) fun h => absurd h.symm hs.1
    rw [List.cons_append, lex_skip hc, ih hm' (cur ++ [c]) hs.2 hn.2]
    simp

theorem lex_string {m : Mode} (hm : m = .str ∨ m = .strEsc) (cur t : Str) (hq : '"' ∉ t)
    (hn : '\n' ∉ t) : lex ⟨m, cur⟩ (t ++ ['"', '\n']) = ([cur ++ t ++ ['"']], .start) := by
  induction t generalizing m cur with
  | nil =>
    obtain rfl | rfl := hm
    · simp [lex, lexChar, lexQuoted, lexCode]
    · simp [lex, lexChar, lexEscaped, lexQuoted]
  | cons c t ih =>
    simp only [List.mem_cons, not_or] at hq hn
    have hc : ∃ m', lexChar ⟨m, cur⟩ c = ([], ⟨m', cur ++ [c]⟩) ∧ (m' = .str ∨ m' = .strEsc) := by
      obtain rfl | rfl := hm
      · by_cases hb : c = '\\'
        · exact ⟨.strEsc, by simp [lexChar, lexQuoted, hb], Or.inr rfl⟩
        · exact ⟨.str, by simp [lexChar, lexQuoted, Ne.symm hn.1, Ne.symm hq.1, hb], Or.inl rfl⟩
      · exact ⟨.str, by simp [lexChar, lexEscaped, Ne.symm hn.1], Or.inl rfl⟩
    obtain ⟨m', hc, hm'⟩ := hc
    rw [List.cons_append, lex_skip hc, ih hm' (cur ++ [c]) hq.2 hn.2]
    simp

theorem lex_quoted (cur t : Str) (hq : '"' ∉ t) (hn : '\n' ∉ t) :
    lex ⟨.code, cur⟩ ('"' :: (t ++ ['"', '\n'])) = ([cur ++ '"' :: t ++ ['"']], .start) := by
  have hquote : lexChar ⟨.code, cur⟩ '"' = ([], ⟨.str, cur ++ ['"']⟩) := by
    simp [lexChar, lexCode]
  rw [lex_skip hquote, lex_string (Or.inl rfl) _ t hq hn]
  simp

theorem dropWhile_blank_cons (t : Str) : (' ' :: t).dropWhile blank = t.dropWhile blank :=
  List.dropWhile_cons_of_pos (by decide)

theorem reads_verbatim (word x : Str) (hw : ∀ c ∈ word, identChar c = true) (hne : word ≠ [])
    (hs : '/' ∉ x) (hn : '\n' ∉ x) (hlast : x.getLast? ≠ some '\\') :
    reads ('#' :: word ++ ' ' :: x ++ ['\n']) =
      some (directiveOf word (x.dropWhile blank)).toList := by
  have hword : ∀ d, identChar d = false → d ∉ word := fun d hd hm => by
    rw [hw d hm] at hd
    cases hd
  have hlex : lex .start ('#' :: word ++ ' ' :: x ++ ['\n']) =
      (['#' :: word ++ ' ' :: x], .start) :=
    lex_verbatim rfl [] ('#' :: word ++ ' ' :: x) (by simp [hword '/' (by decide), hs])
      (by simp [hword '\n' (by decide), hn])
  have hread := reads_line (by simp [hword '\n' (by decide), hn])
    (getLast?_append_cons_ne _ (by decide) hlast) hlex
  rw [hread, List.cons_append, directive_hash hw hne (stop_cons (by decide) x),
    dropWhile_blank_cons]

theorem directiveOf_include (rest : Str) :
    directiveOf includeWord rest = some (.include_ rest) := rfl

theorem reads_include (file : Str) (hq : '"' ∉ file) (hn : '\n' ∉ file) :
    reads ('#' :: includeWord ++ ' ' :: '"' :: file ++ ['"', '\n']) =
      some [.include_ ('"' :: file ++ ['"'])] := by
  have hword := List.all_eq_true.mp (show includeWord.all identChar = true by decide +kernel)
  have hplain := List.all_eq_true.mp
    (show ('#' :: includeWord ++ [' ']).all plain = true by decide +kernel)
  have hlex : lex .start ('#' :: includeWord ++ ' ' :: '"' :: file ++ ['"'] ++ ['\n']) =
      (['#' :: includeWord ++ ' ' :: '"' :: file ++ ['"']], .start) := by
    have he : '#' :: includeWord ++ ' ' :: '"' :: file ++ ['"'] ++ ['\n'] =
        ('#' :: includeWord ++ [' ']) ++ '"' :: (file ++ ['"', '\n']) := by simp
    rw [he, Lex.start, lex_plain [] _ _ hplain, List.nil_append, lex_quoted _ file hq hn]
    simp [Lex.start]
  have hnl : '\n' ∉ '#' :: includeWord ++ ' ' :: '"' :: file ++ ['"'] := by
    have hi : '\n' ∉ includeWord := by decide +kernel
    simp [hi, hn]
  have hread := reads_line hnl (by rw [List.getLast?_append]; simp) hlex
  have hdir : directive ('#' :: includeWord ++ ' ' :: '"' :: file ++ ['"']) =
      some (.include_ ('"' :: file ++ ['"'])) := by
    have he : '#' :: includeWord ++ ' ' :: '"' :: file ++ ['"'] =
        '#' :: (includeWord ++ ' ' :: ('"' :: file ++ ['"'])) := by simp
    have hd : ('"' :: file ++ ['"']).dropWhile blank = '"' :: file ++ ['"'] := by
      rw [List.cons_append, List.dropWhile_cons_of_neg (by decide)]
    rw [he, directive_hash hword (by decide +kernel) (stop_cons (by decide) _),
      dropWhile_blank_cons, hd, directiveOf_include]
  rw [hdir] at hread
  simpa using hread

/-- The first logical line of a text, without comments; one that is never closed is cut off. -/
def codeText (t : Str) : Str := firstLine .start (splice t ++ ['\n'])

def lineDirective (line : Str) : Option Directive := directive (codeText line)

theorem codeText_append (p t : Str) (hp : ∀ c ∈ p, plain c = true) (hb : '\\' ∉ p) :
    codeText (p ++ t) = p ++ codeText t := by
  have hsplice : splice (p ++ t) = p ++ splice t := by
    clear hp
    induction p with
    | nil => rfl
    | cons c p ih =>
      simp only [List.mem_cons, not_or] at hb
      rw [List.cons_append, splice_cons (Ne.symm hb.1), ih hb.2, List.cons_append]
  have hlex : firstLine .start (p ++ (splice t ++ ['\n'])) =
      firstLine ⟨.code, p⟩ (splice t ++ ['\n']) := by
    simp only [firstLine, Lex.start, lex_plain [] p _ hp, List.nil_append]
  rw [codeText, hsplice, List.append_assoc, hlex, firstLine_cur]
  rfl

theorem lineDirective_word {word : Str} (rest : Str) (hw : ∀ c ∈ word, identChar c = true)
    (hne : word ≠ []) :
    lineDirective ('#' :: word ++ ' ' :: rest) =
      directiveOf word ((codeText rest).dropWhile blank) := by
  have hplain : ∀ c ∈ '#' :: word ++ [' '], plain c = true := by
    intro c hc
    simp only [List.cons_append, List.mem_cons, List.mem_append, List.not_mem_nil, or_false] at hc
    obtain rfl | hc | rfl := hc
    · decide
    · exact plain_of_identChar (hw c hc)
    · decide
  have hslash : '\\' ∉ '#' :: word ++ [' '] := by
    intro hm
    simp only [List.cons_append, List.mem_cons, List.mem_append, List.not_mem_nil, or_false] at hm
    obtain hc | hc | hc := hm
    · exact absurd hc (by decide)
    · exact absurd (hw _ hc) (by decide)
    · exact absurd hc (by decide)
  have hcode := codeText_append ('#' :: word ++ [' ']) rest hplain hslash
  have hcut : '#' :: word ++ ' ' :: rest = '#' :: word ++ [' '] ++ rest := by simp
  have hline : '#' :: word ++ [' '] ++ codeText rest = '#' :: (word ++ ' ' :: codeText rest) := by
    simp
  rw [lineDirective, hcut, hcode, hline, directive_hash hw hne (stop_cons (by decide) _),
    dropWhile_blank_cons]

theorem lineDirective_include (rest : Str) :
    lineDirective ('#' :: includeWord ++ ' ' :: rest) =
      some (.include_ ((codeText rest).dropWhile blank)) := by
  rw [lineDirective_word rest (List.all_eq_true.mp (by decide +kernel)) (by decide +kernel),
    directiveOf_include]

end OpenedExtraction.Cpp
