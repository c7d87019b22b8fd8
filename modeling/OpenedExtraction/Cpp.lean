import OpenedExtraction.PyText

/-! A C preprocessor on texts: line splicing, comments, directives, conditional groups and
the macro table. Macro replacement and the value of an #if expression are parameters.
Independent of any program. -/
namespace OpenedExtraction.Cpp
open OpenedExtraction.PyText

/-- A backslash at the end of a line joins the next line to it. -/
def splice : Str → Str
  | [] => []
  | '\\' :: '\n' :: cs => splice cs
  | c :: cs => c :: splice cs

inductive Mode where
  | code | slash | lineComment | block | star | str | strEsc | chr | chrEsc
  deriving DecidableEq, Repr

/-- The mode, and what has been read of the current logical line. -/
structure Lex where
  mode : Mode
  cur : Str
  deriving DecidableEq, Repr

def Lex.start : Lex := ⟨.code, []⟩

def lexCode (cur : Str) (c : Char) : List Str × Lex :=
  if c = '\n' then ([cur], .start)
  else if c = '/' then ([], ⟨.slash, cur⟩)
  else if c = '"' then ([], ⟨.str, cur ++ [c]⟩)
  else if c = '\x27' then ([], ⟨.chr, cur ++ [c]⟩)
  else ([], ⟨.code, cur ++ [c]⟩)

/-- Inside a string or a character constant; both end with the line at the latest. -/
def lexQuoted (quote : Char) (inside escape : Mode) (cur : Str) (c : Char) : List Str × Lex :=
  if c = '\n' then ([cur], .start)
  else if c = quote then ([], ⟨.code, cur ++ [c]⟩)
  else if c = '\\' then ([], ⟨escape, cur ++ [c]⟩)
  else ([], ⟨inside, cur ++ [c]⟩)

def lexEscaped (inside : Mode) (cur : Str) (c : Char) : List Str × Lex :=
  if c = '\n' then ([cur], .start) else ([], ⟨inside, cur ++ [c]⟩)

/-- One character; a comment counts as one blank. -/
def lexChar (s : Lex) (c : Char) : List Str × Lex :=
  match s.mode with
  | .code => lexCode s.cur c
  | .slash =>
    if c = '/' then ([], ⟨.lineComment, s.cur⟩)
    else if c = '*' then ([], ⟨.block, s.cur⟩)
    else lexCode (s.cur ++ ['/']) c
  | .lineComment => if c = '\n' then ([s.cur ++ [' ']], .start) else ([], s)
  | .block => ([], ⟨if c = '*' then .star else .block, s.cur⟩)
  | .star =>
    if c = '/' then ([], ⟨.code, s.cur ++ [' ']⟩)
    else ([], ⟨if c = '*' then .star else .block, s.cur⟩)
  | .str => lexQuoted '"' .str .strEsc s.cur c
  | .strEsc => lexEscaped .str s.cur c
  | .chr => lexQuoted '\x27' .chr .chrEsc s.cur c
  | .chrEsc => lexEscaped .chr s.cur c

/-- The logical lines that end in a text, and the state after it. -/
def lex : Lex → Str → List Str × Lex
  | s, [] => ([], s)
  | s, c :: cs =>
    ((lexChar s c).1 ++ (lex (lexChar s c).2 cs).1, (lex (lexChar s c).2 cs).2)

inductive Directive where
  | define (name rest : Str)
  | undef (name : Str)
  | ifdef (name : Str)
  | ifndef (name : Str)
  | ifTrue (expr : Str)
  | elif (expr : Str)
  | else_
  | endif
  | include_ (operand : Str)
  deriving DecidableEq, Repr

def blank (c : Char) : Bool := decide (c ∈ [' ', '\t', '\x0b', '\x0c'])

def identStart (c : Char) : Bool := c.isAlpha || c = '_'

def identChar (c : Char) : Bool := c.isAlphanum || c = '_'

/-- The leading identifier of a text; empty if there is none. -/
def lead : Str → Str
  | [] => []
  | c :: cs => if identStart c then c :: cs.takeWhile identChar else []

def defineWord : Str := "define".toList
def undefWord : Str := "undef".toList
def ifdefWord : Str := "ifdef".toList
def ifndefWord : Str := "ifndef".toList
def ifWord : Str := "if".toList
def elifWord : Str := "elif".toList
def elseWord : Str := "else".toList
def endifWord : Str := "endif".toList
def includeWord : Str := "include".toList

/-- The directive with the given word and the text after it. A definition without a name
is no directive; a conditional without a name has the empty one. -/
def directiveOf (word rest : Str) : Option Directive :=
  if word = defineWord then
    if lead rest = [] then none else some (.define (lead rest) (rest.drop (lead rest).length))
  else if word = undefWord then
    if lead rest = [] then none else some (.undef (lead rest))
  else if word = ifdefWord then some (.ifdef (lead rest))
  else if word = ifndefWord then some (.ifndef (lead rest))
  else if word = ifWord then some (.ifTrue rest)
  else if word = elifWord then some (.elif rest)
  else if word = elseWord then some .else_
  else if word = endifWord then some .endif
  else if word = includeWord then some (.include_ rest)
  else none

def afterHash (r : Str) : Option Directive :=
  let word := r.takeWhile identChar
  directiveOf word ((r.drop word.length).dropWhile blank)

def directive (line : Str) : Option Directive :=
  match line.dropWhile blank with
  | [] => none
  | c :: r => if c = '#' then afterHash (r.dropWhile blank) else none

/-- The directives of a text, whose last line may lack its line feed. -/
def directives (text : Str) : List Directive :=
  (lex .start (splice text ++ ['\n'])).1.filterMap directive

abbrev Table (δ : Type*) := Str → Option δ

/-- The state of a conditional: its current group is processed, none has been so far, or
no further one will be. -/
inductive Branch where
  | active | waiting | done
  deriving DecidableEq, Repr

structure State (δ : Type*) where
  table : Table δ
  frames : List Branch
  included : List Str

variable {δ : Type*}

def State.live (s : State δ) : Bool := s.frames.all (fun b => b = .active)

def State.assign (s : State δ) (name : Str) (v : Option δ) : State δ :=
  { s with table := fun n => if n = name then v else s.table n }

def State.push (s : State δ) (holds : Bool) : State δ :=
  { s with frames := (if s.live then (if holds then .active else .waiting) else .done) :: s.frames }

def Branch.next (holds : Bool) : Branch → Branch
  | .waiting => if holds then .active else .waiting
  | _ => .done

def State.switch (s : State δ) (holds : Bool) : State δ :=
  match s.frames with
  | [] => s
  | b :: fs => { s with frames := b.next holds :: fs }

section Run
variable (repl : Str → δ) (cond : Table δ → Str → Bool)

def step (s : State δ) : Directive → State δ
  | .define name rest => if s.live then s.assign name (some (repl rest)) else s
  | .undef name => if s.live then s.assign name none else s
  | .ifdef name => s.push (name ≠ [] ∧ (s.table name).isSome)
  | .ifndef name => s.push (name ≠ [] ∧ (s.table name).isNone)
  | .ifTrue expr => s.push (cond s.table expr)
  | .elif expr => s.switch (cond s.table expr)
  | .else_ => s.switch true
  | .endif => { s with frames := s.frames.tail }
  | .include_ operand => if s.live then { s with included := s.included ++ [operand] } else s

def run (s : State δ) (ds : List Directive) : State δ := ds.foldl (step repl cond) s

def preprocess (T : Table δ) (text : Str) : State δ :=
  run repl cond ⟨T, [], []⟩ (directives text)

end Run

theorem splice_cons {c : Char} (h : c ≠ '\\') (cs : Str) : splice (c :: cs) = c :: splice cs := by
  rw [splice]
  simp [h]

theorem splice_append (a b : Str) (h : a.getLast? ≠ some '\\') :
    splice (a ++ b) = splice a ++ splice b := by
  fun_induction splice a with
  | case1 => rfl
  | case2 cs ih =>
    have hl : cs.getLast? ≠ some '\\' := by
      intro hc
      apply h
      simp [List.getLast?_cons, hc]
    simpa [splice] using ih hl
  | case3 c cs hne ih =>
    cases cs with
    | nil =>
      have hc : c ≠ '\\' := by simpa using h
      simp [splice_cons hc, splice]
    | cons d cs =>
      have hl : (d :: cs).getLast? ≠ some '\\' := by
        intro hc
        apply h
        rw [List.getLast?_cons, hc]
        rfl
      have hi := ih hl
      simp only [List.cons_append] at hi ⊢
      rw [splice.eq_3 c (d :: (cs ++ b)), hi]
      intro xs hcx hdx
      simp only [List.cons.injEq] at hdx
      exact hne cs hcx (by rw [hdx.1])

theorem splice_line (b : Str) (hb : '\n' ∉ b) (h : b.getLast? ≠ some '\\') :
    splice (b ++ ['\n']) = b ++ ['\n'] := by
  have hs : splice b = b := by
    fun_induction splice b with
    | case1 => rfl
    | case2 cs ih => simp at hb
    | case3 c cs hne ih =>
      simp only [List.mem_cons, not_or] at hb
      cases cs with
      | nil => rfl
      | cons d cs => rw [ih hb.2 (by simpa [List.getLast?_cons] using h)]
  rw [splice_append b ['\n'] h, hs]
  rfl

theorem splice_joined (b rest : Str) (hb : '\n' ∉ b) :
    splice (b ++ '\\' :: '\n' :: rest) = b ++ splice rest := by
  induction b with
  | nil => rfl
  | cons c b ih =>
    simp only [List.mem_cons, not_or] at hb
    rw [List.cons_append, List.cons_append, ← ih hb.2]
    refine splice.eq_3 c _ fun xs hc hx => ?_
    cases b with
    | nil => simp at hx
    | cons d b =>
      simp only [List.cons_append, List.cons.injEq] at hx
      exact hb.2 (by simp [hx.1])

theorem lex_append (s : Lex) (a b : Str) :
    lex s (a ++ b) = ((lex s a).1 ++ (lex (lex s a).2 b).1, (lex (lex s a).2 b).2) := by
  induction a generalizing s with
  | nil => rfl
  | cons c cs ih => simp [lex, ih]

/-- The directives of a text that ends where it began: between two logical lines and
outside comments. -/
def reads (text : Str) : Option (List Directive) :=
  if (lex .start (splice text)).2 = .start ∧ text.getLast? ≠ some '\\' then
    some ((lex .start (splice text)).1.filterMap directive)
  else none

theorem reads_iff (text : Str) (ds : List Directive) :
    reads text = some ds ↔ (∃ ls, lex .start (splice text) = (ls, .start) ∧
      ls.filterMap directive = ds) ∧ text.getLast? ≠ some '\\' := by
  rw [reads]
  constructor
  · intro h
    split at h
    · next hc => exact ⟨⟨_, Prod.ext rfl hc.1, Option.some.inj h⟩, hc.2⟩
    · cases h
  · intro h
    obtain ⟨⟨ls, hl, hd⟩, hb⟩ := h
    rw [if_pos ⟨by rw [hl], hb⟩, hl, hd]

theorem reads_nil : reads [] = some [] := rfl

theorem reads_append {a b : Str} {ds es : List Directive} (ha : reads a = some ds)
    (hb : reads b = some es) : reads (a ++ b) = some (ds ++ es) := by
  rw [reads_iff] at ha hb ⊢
  obtain ⟨⟨ls, hl, hd⟩, hna⟩ := ha
  obtain ⟨⟨ls', hl', hd'⟩, hnb⟩ := hb
  refine ⟨⟨ls ++ ls', ?_, by rw [List.filterMap_append, hd, hd']⟩, ?_⟩
  · rw [splice_append a b hna, lex_append, hl, hl']
  · rw [List.getLast?_append]
    cases hlast : b.getLast? with
    | none => simpa using hna
    | some c => simpa [hlast] using hnb

theorem directives_of_reads {text : Str} {ds : List Directive} (h : reads text = some ds) :
    directives text = ds := by
  obtain ⟨⟨ls, hl, hd⟩, _⟩ := (reads_iff text ds).mp h
  have hn : lex .start ['\n'] = ([[]], .start) := rfl
  rw [directives, lex_append, hl, hn, List.filterMap_append, hd]
  exact List.append_nil ds

end OpenedExtraction.Cpp
