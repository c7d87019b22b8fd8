import Mathlib.Data.List.Basic
import Mathlib.Data.List.Infix
import Mathlib.Data.List.TakeWhile
import Mathlib.Tactic.Linarith

/-! Python text as lists of characters: the string methods, integer parsing and
text-mode file reading of the standard library. Independent of any program. -/
namespace OpenedExtraction.PyText

abbrev Str := List Char

instance (w : Str) (ws : List Str) : Decidable (w ∈ ws) :=
  inferInstanceAs (Decidable (w ∈ ws))

/-- Characters for which str.isspace holds; split() and rstrip() use the same set. -/
def isspace (c : Char) : Bool :=
  decide (c.toNat ∈ [0x9, 0xa, 0xb, 0xc, 0xd, 0x1c, 0x1d, 0x1e, 0x1f, 0x20, 0x85, 0xa0,
    0x1680, 0x2000, 0x2001, 0x2002, 0x2003, 0x2004, 0x2005, 0x2006, 0x2007, 0x2008,
    0x2009, 0x200a, 0x2028, 0x2029, 0x202f, 0x205f, 0x3000])

/-- s.split(): the maximal runs without white space. -/
def split (s : Str) : List Str :=
  (s.splitOnP isspace).filter (fun w => !w.isEmpty)

/-- s.find(sub): the first index at which sub occurs. -/
def find (sub : Str) : Str → Option Nat
  | [] => if sub.isEmpty then some 0 else none
  | c :: cs => if sub.isPrefixOf (c :: cs) then some 0 else (find sub cs).map (· + 1)

/-- The operator `sub in s`. -/
def contains (sub s : Str) : Bool := decide (sub <:+: s)

def endswith (s suff : Str) : Bool := suff.isSuffixOf s

def rstrip (s : Str) : Str := (s.reverse.dropWhile isspace).reverse

/-- s.replace(old, "") for a single character. -/
def remove (old : Char) (s : Str) : Str := s.filter (· ≠ old)

/-- s.replace(old, new) for single characters. -/
def replace (old new : Char) (s : Str) : Str := s.map (fun c => if c = old then new else c)

/- s.split(sep) for a longer separator; skip counts the characters of a separator
   that are still to be passed over. -/
def splitSepFrom (sep : Str) : Nat → Str → Str → List Str
  | _, cur, [] => [cur]
  | skip + 1, cur, _ :: cs => splitSepFrom sep skip cur cs
  | 0, cur, c :: cs =>
    if sep.isPrefixOf (c :: cs) then cur :: splitSepFrom sep (sep.length - 1) [] cs
    else splitSepFrom sep 0 (cur ++ [c]) cs

def splitSep (sep s : Str) : List Str := splitSepFrom sep 0 [] s

/-- str(n) for an integer. -/
def str : Int → Str
  | .ofNat n => Nat.toDigits 10 n
  | .negSucc n => '-' :: Nat.toDigits 10 (n + 1)

/-- Code points of the digit zero of every decimal digit block. -/
def decimalZeros : List Nat :=
  [48, 1632, 1776, 1984, 2406, 2534, 2662, 2790, 2918, 3046, 3174, 3302, 3430, 3558, 3664,
   3792, 3872, 4160, 4240, 6112, 6160, 6470, 6608, 6784, 6800, 6992, 7088, 7232, 7248,
   42528, 43216, 43264, 43472, 43504, 43600, 44016, 65296, 66720, 68912, 69734, 69872,
   69942, 70096, 70384, 70736, 70864, 71248, 71360, 71472, 71904, 72016, 72784, 73040,
   73120, 92768, 92864, 93008, 120782, 120792, 120802, 120812, 120822, 123200, 123632,
   125264, 130032]

def digit (c : Char) : Option Nat :=
  (decimalZeros.find? (fun z => z ≤ c.toNat ∧ c.toNat < z + 10)).map (c.toNat - ·)

/- The digits of an integer literal; an underscore is allowed between two digits. -/
def digits (acc : Nat) : Str → Option Nat
  | [] => some acc
  | ['_'] => none
  | '_' :: c :: cs => (digit c).bind fun d => digits (10 * acc + d) cs
  | c :: cs => (digit c).bind fun d => digits (10 * acc + d) cs

def unsigned : Str → Option Nat
  | [] => none
  | c :: cs => (digit c).bind fun d => digits d cs

/-- White space around an integer: the separators 0x1c to 0x1f are none. -/
def intSpace (c : Char) : Bool := isspace c && decide (c.toNat ∉ [0x1c, 0x1d, 0x1e, 0x1f])

/-- int(s) for a string; none is ValueError. The limit on the number of digits, a setting of the
interpreter, is left out. -/
def int (s : Str) : Option Int :=
  match ((s.dropWhile intSpace).reverse.dropWhile intSpace).reverse with
  | '-' :: cs => (unsigned cs).map (fun n => -(n : Int))
  | '+' :: cs => (unsigned cs).map (fun n => (n : Int))
  | cs => (unsigned cs).map (fun n => (n : Int))

/-- Text mode turns every line ending into a line feed. -/
def universalNewlines : Str → Str
  | [] => []
  | '\r' :: '\n' :: cs => '\n' :: universalNewlines cs
  | c :: cs => (if c = '\r' then '\n' else c) :: universalNewlines cs

/-- File.readlines(): every line keeps its line feed, the last one may have none. -/
def readlines : Str → List Str
  | [] => []
  | c :: cs =>
    if c = '\n' then [c] :: readlines cs
    else match readlines cs with
      | [] => [[c]]
      | l :: ls => (c :: l) :: ls

inductive PyErr where
  | indexError | nameError | valueError | osError | systemExit
  deriving DecidableEq, Repr

/-- What a path names: nothing, something open() rejects, or a text file. -/
inductive Node where
  | missing
  | unreadable
  | text (s : Str)

abbrev FS := Str → Node

def filesOf (files : List (Str × Str)) : FS := fun path =>
  match files.find? (fun f => f.1 = path) with
  | some f => .text f.2
  | none => .missing

def exists_ (fs : FS) (path : Str) : Bool :=
  match fs path with
  | .missing => false
  | _ => true

/-- open(path,'r').readlines() -/
def openLines (fs : FS) (path : Str) : Except PyErr (List Str) :=
  match fs path with
  | .text s => .ok (readlines (universalNewlines s))
  | _ => .error .osError

/-- A list access that raises IndexError. -/
def item {α : Type*} (xs : List α) (i : Nat) : Except PyErr α :=
  match xs[i]? with
  | some x => .ok x
  | none => .error .indexError

theorem item_ok_iff {α : Type*} {xs : List α} {i : Nat} {x : α} :
    item xs i = .ok x ↔ xs[i]? = some x := by
  cases h : xs[i]? <;> simp [item, h]

theorem find_eq_zero (sub s : Str) : find sub s = some 0 ↔ sub <+: s := by
  cases s with
  | nil => cases sub <;> simp [find]
  | cons c cs =>
    by_cases h : sub.isPrefixOf (c :: cs)
    · simp only [find, h, if_true, true_iff]
      exact List.isPrefixOf_iff_prefix.mp h
    · have hn : ¬ sub <+: c :: cs := fun hp => h (List.isPrefixOf_iff_prefix.mpr hp)
      simp only [find, h, hn, iff_false]
      cases find sub cs <;> simp

theorem contains_iff (sub s : Str) : contains sub s = true ↔ sub <:+: s := by
  simp [contains]

theorem infix_append_cons {sub : Str} {z : Char} (hz : z ∉ sub) (a b : Str) :
    sub <:+: a ++ z :: b ↔ sub <:+: a ∨ sub <:+: b := by
  constructor
  · intro h
    obtain h | h | ⟨l₁, l₂, rfl, h₁, h₂⟩ := List.infix_append_iff.mp h
    · exact Or.inl h
    · obtain h | h := List.infix_cons_iff.mp h
      · cases sub with
        | nil => exact Or.inl (List.nil_infix)
        | cons c cs =>
          rw [List.cons_prefix_cons] at h
          exact absurd (by simp [h.1]) hz
      · exact Or.inr h
    · cases l₂ with
      | nil => exact Or.inl (by simpa using h₁.isInfix)
      | cons c cs =>
        rw [List.cons_prefix_cons] at h₂
        exact absurd (by simp [h₂.1]) hz
  · intro h
    cases h with
    | inl h => exact h.trans (List.prefix_append a (z :: b)).isInfix
    | inr h =>
      exact h.trans ((List.suffix_cons z b).trans (List.suffix_append a (z :: b))).isInfix

theorem splitSepFrom_none {sep : Str} (cur s : Str) (h : ¬ sep <:+: s) :
    splitSepFrom sep 0 cur s = [cur ++ s] := by
  induction s generalizing cur with
  | nil => simp [splitSepFrom]
  | cons c s ih =>
    have hp : sep.isPrefixOf (c :: s) = false := by
      rw [Bool.eq_false_iff]
      intro hp
      exact h (List.isPrefixOf_iff_prefix.mp hp).isInfix
    rw [splitSepFrom, hp]
    have hs : ¬ sep <:+: s := fun hi => h (hi.trans (List.suffix_cons c s).isInfix)
    rw [if_neg (by simp), ih (cur ++ [c]) hs]
    simp

theorem splitSepFrom_skip (sep cur a s : Str) :
    splitSepFrom sep a.length cur (a ++ s) = splitSepFrom sep 0 cur s := by
  induction a with
  | nil => rfl
  | cons c a ih => rw [List.length_cons, List.cons_append, splitSepFrom, ih]

theorem splitSep_append {sep : Str} (h : sep ≠ []) (s : Str) :
    splitSep sep (sep ++ s) = [] :: splitSep sep s := by
  cases sep with
  | nil => exact absurd rfl h
  | cons c cs =>
    have hp : (c :: cs).isPrefixOf (c :: (cs ++ s)) = true :=
      List.isPrefixOf_iff_prefix.mpr (List.prefix_append (c :: cs) s)
    rw [splitSep, List.cons_append, splitSepFrom, if_pos hp]
    exact congrArg _ (splitSepFrom_skip (c :: cs) [] cs s)

theorem splitSepFrom_ne_nil (sep : Str) (skip : Nat) (cur s : Str) :
    splitSepFrom sep skip cur s ≠ [] := by
  induction s generalizing skip cur with
  | nil => simp [splitSepFrom]
  | cons c s ih =>
    cases skip with
    | succ skip => exact ih skip cur
    | zero =>
      rw [splitSepFrom]
      split
      · exact List.cons_ne_nil _ _
      · exact ih 0 _

theorem last_splitSepFrom {sep : Str} {skip : Nat} {cur s p : Str} (hcur : skip = 0 ∨ cur = [])
    (hp : (splitSepFrom sep skip cur s).getLast? = some p) : p <:+ cur ++ s := by
  induction s generalizing skip cur with
  | nil =>
    simp only [splitSepFrom, List.getLast?_singleton, Option.some.injEq] at hp
    simp [hp]
  | cons c s ih =>
    cases skip with
    | succ skip =>
      rw [splitSepFrom] at hp
      have hnil : cur = [] := hcur.resolve_left (Nat.succ_ne_zero skip)
      have hi := ih (Or.inr hnil) hp
      rw [hnil, List.nil_append] at hi ⊢
      exact hi.trans (List.suffix_cons c s)
    | zero =>
      rw [splitSepFrom] at hp
      split at hp
      · rw [List.getLast?_cons_of_ne_nil (splitSepFrom_ne_nil sep _ [] s)] at hp
        have hi := ih (Or.inr rfl) hp
        rw [List.nil_append] at hi
        exact hi.trans ((List.suffix_cons c s).trans (List.suffix_append cur (c :: s)))
      · have hi := ih (Or.inl rfl) hp
        rwa [List.append_assoc, List.singleton_append] at hi

theorem length_last_splitSepFrom {sep : Str} (h : sep ≠ []) {cur s p : Str} (hs : sep <:+: s)
    (hp : (splitSepFrom sep 0 cur s).getLast? = some p) : p.length < cur.length + s.length := by
  induction s generalizing cur with
  | nil => exact absurd (List.infix_nil.mp hs) h
  | cons c s ih =>
    rw [List.length_cons]
    rw [splitSepFrom] at hp
    split at hp
    · rw [List.getLast?_cons_of_ne_nil (splitSepFrom_ne_nil sep _ [] s)] at hp
      have hlen := (last_splitSepFrom (Or.inr rfl) hp).length_le
      rw [List.nil_append] at hlen
      omega
    · next hno =>
      have hs' : sep <:+: s := by
        cases List.infix_cons_iff.mp hs with
        | inl hpre => exact absurd (List.isPrefixOf_iff_prefix.mpr hpre) hno
        | inr hin => exact hin
      have hi := ih hs' hp
      rw [List.length_append, List.length_singleton] at hi
      omega

/-- A word as split() returns it: not empty and without white space. -/
def IsToken (w : Str) : Prop := w ≠ [] ∧ ∀ c ∈ w, isspace c = false

theorem mem_splitOnP {α : Type*} (p : α → Bool) (s w : List α) (h : w ∈ s.splitOnP p) :
    ∀ c ∈ w, c ∈ s ∧ p c = false := by
  induction s generalizing w with
  | nil => simp_all
  | cons x xs ih =>
    rw [List.splitOnP_cons_eq_if_modifyHead] at h
    by_cases hx : p x
    · simp only [hx, if_true, List.mem_cons] at h
      cases h with
      | inl h => simp [h]
      | inr h => exact fun c hc => ⟨List.mem_cons_of_mem x (ih w h c hc).1, (ih w h c hc).2⟩
    · obtain ⟨hd, tl, he⟩ := List.exists_cons_of_ne_nil (List.splitOnP_ne_nil p xs)
      simp only [hx, he, List.modifyHead_cons] at h
      cases List.mem_cons.mp h with
      | inl h =>
        intro c hc
        rw [h] at hc
        cases List.mem_cons.mp hc with
        | inl hc => simpa [hc] using hx
        | inr hc =>
          obtain ⟨h1, h2⟩ := ih hd (by simp [he]) c hc
          exact ⟨List.mem_cons_of_mem x h1, h2⟩
      | inr h =>
        intro c hc
        obtain ⟨h1, h2⟩ := ih w (by simp [he, h]) c hc
        exact ⟨List.mem_cons_of_mem x h1, h2⟩

theorem mem_split (s w : Str) (h : w ∈ split s) : IsToken w := by
  simp only [split, List.mem_filter] at h
  exact ⟨by simpa using h.2, fun c hc => (mem_splitOnP isspace s w h.1 c hc).2⟩

theorem split_append (a b : Str) (c : Char) (h : isspace c = true) :
    split (a ++ c :: b) = split a ++ split b := by
  simp [split, List.splitOnP_append_cons a b h]

@[simp] theorem split_nil : split [] = [] := rfl

theorem split_token (w : Str) (h : IsToken w) : split w = [w] := by
  simp [split, List.splitOnP_eq_singleton h.2, h.1]

theorem split_word (w b : Str) (c : Char) (h : IsToken w) (hc : isspace c = true) :
    split (w ++ c :: b) = w :: split b := by
  rw [split_append w b c hc, split_token w h]
  rfl

theorem split_blank (b : Str) (c : Char) (hc : isspace c = true) :
    split (c :: b) = split b := by
  simpa using split_append [] b c hc

theorem split_ne_nil {s : Str} {c : Char} (hm : c ∈ s) (hc : isspace c = false) :
    split s ≠ [] := by
  induction s with
  | nil => simp at hm
  | cons x xs ih =>
    by_cases hx : isspace x = true
    · rw [split_blank xs x hx]
      cases List.mem_cons.mp hm with
      | inl he => rw [he, hx] at hc; cases hc
      | inr hm => exact ih hm
    · obtain ⟨hd, tl, he⟩ := List.exists_cons_of_ne_nil (List.splitOnP_ne_nil isspace xs)
      simp [split, List.splitOnP_cons_eq_if_modifyHead, hx, he]

theorem rstrip_eq_nil_iff (s : Str) : rstrip s = [] ↔ ∀ c ∈ s, isspace c = true := by
  rw [rstrip, List.reverse_eq_nil_iff, List.dropWhile_eq_nil_iff]
  simp

theorem universalNewlines_free (s : Str) : '\r' ∉ universalNewlines s := by
  fun_induction universalNewlines s with
  | case1 => simp
  | case2 cs ih => simpa using ih
  | case3 c cs _ ih =>
    by_cases hc : c = '\r'
    · simpa [hc] using ih
    · simpa [hc] using ⟨Ne.symm hc, ih⟩

theorem universalNewlines_eq (s : Str) (h : '\r' ∉ s) : universalNewlines s = s := by
  fun_induction universalNewlines s with
  | case1 => rfl
  | case2 cs ih => simp at h
  | case3 c cs _ ih =>
    have hc : c ≠ '\r' := by
      rintro rfl
      simp at h
    simp [hc, ih (fun hm => h (List.mem_cons_of_mem c hm))]

def IsLine (l : Str) : Prop := ∃ b, l = b ++ ['\n'] ∧ '\n' ∉ b

def EndsLine (s : Str) : Prop := s = [] ∨ ∃ b, s = b ++ ['\n']

theorem flatten_readlines (s : Str) : (readlines s).flatten = s := by
  induction s with
  | nil => rfl
  | cons c cs ih =>
    by_cases hc : c = '\n'
    · simp [readlines, hc, ih]
    · cases hr : readlines cs with
      | nil =>
        rw [hr] at ih
        simpa [readlines, hc, hr] using ih
      | cons l ls =>
        rw [hr] at ih
        simpa [readlines, hc, hr] using ih

theorem readlines_ne_nil (s : Str) (h : s ≠ []) : readlines s ≠ [] := by
  intro hr
  have := flatten_readlines s
  rw [hr] at this
  exact h this.symm

theorem readlines_newline (b : Str) (h : '\n' ∉ b) (s : Str) :
    readlines (b ++ '\n' :: s) = (b ++ ['\n']) :: readlines s := by
  induction b with
  | nil => simp [readlines]
  | cons c cs ih =>
    have hc : c ≠ '\n' := by
      rintro rfl
      simp at h
    simp [readlines, hc, ih (fun hm => h (List.mem_cons_of_mem c hm))]

theorem readlines_line_append (l s : Str) (h : IsLine l) :
    readlines (l ++ s) = l :: readlines s := by
  obtain ⟨b, rfl, hb⟩ := h
  simpa using readlines_newline b hb s

theorem readlines_lines_append (ls : List Str) (s : Str) (h : ∀ l ∈ ls, IsLine l) :
    readlines (ls.flatten ++ s) = ls ++ readlines s := by
  induction ls with
  | nil => rfl
  | cons l ls ih =>
    rw [List.flatten_cons, List.append_assoc, readlines_line_append l _ (h l (by simp))]
    simp [ih (fun x hx => h x (List.mem_cons_of_mem l hx))]

theorem readlines_lines (ls : List Str) (h : ∀ l ∈ ls, IsLine l) :
    readlines ls.flatten = ls := by
  simpa [readlines] using readlines_lines_append ls [] h

theorem readlines_isLine (s : Str) (h : EndsLine s) : ∀ l ∈ readlines s, IsLine l := by
  induction s with
  | nil => simp [readlines]
  | cons c cs ih =>
    have hcs : EndsLine cs ∧ (cs = [] → c = '\n') := by
      rcases h with h | ⟨b, h⟩
      · simp at h
      · cases b with
        | nil => simp at h; simp [h, EndsLine]
        | cons x b =>
          simp only [List.cons_append, List.cons.injEq] at h
          exact ⟨Or.inr ⟨b, h.2⟩, by simp [h.2]⟩
    have hi := ih hcs.1
    by_cases hc : c = '\n'
    · simp only [readlines, hc, if_true, List.mem_cons]
      rintro l (rfl | hl)
      · exact ⟨[], rfl, by simp⟩
      · exact hi l hl
    · cases hr : readlines cs with
      | nil =>
        exact absurd (hcs.2 (by by_contra hn; exact readlines_ne_nil cs hn hr)) hc
      | cons l ls =>
        rw [hr] at hi
        simp only [readlines, hc, if_false, hr, List.mem_cons]
        rintro x (rfl | hx)
        · obtain ⟨b, rfl, hb⟩ := hi l (by simp)
          exact ⟨c :: b, rfl, by simp [Ne.symm hc, hb]⟩
        · exact hi x (by simp [hx])

/-- The lines of a text, last line feed or not: no line is empty, and a line feed stands at the
end of a line only, which every line but the last one has. -/
def Rows : List Str → Prop
  | [] => True
  | [l] => l ≠ [] ∧ '\n' ∉ l.dropLast
  | l :: l' :: ls => IsLine l ∧ Rows (l' :: ls)

theorem readlines_noNewline {s : Str} (hne : s ≠ []) (h : '\n' ∉ s) : readlines s = [s] := by
  induction s with
  | nil => exact absurd rfl hne
  | cons c cs ih =>
    have hc : c ≠ '\n' := fun he => h (by simp [he])
    have hcs : '\n' ∉ cs := fun hm => h (List.mem_cons_of_mem c hm)
    cases cs with
    | nil => simp [readlines, hc]
    | cons d ds => rw [readlines, if_neg hc, ih (by simp) hcs]

theorem Rows.cons {l : Str} {ls : List Str} (hl : IsLine l) (h : Rows ls) : Rows (l :: ls) := by
  cases ls with
  | nil =>
    obtain ⟨b, rfl, hb⟩ := hl
    exact ⟨by simp, by simpa using hb⟩
  | cons l' ls => exact ⟨hl, h⟩

theorem rows_readlines (s : Str) : Rows (readlines s) := by
  by_cases hn : '\n' ∈ s
  · obtain ⟨b, rest, rfl, hb⟩ := List.eq_append_cons_of_mem hn
    have hlt : rest.length < (b ++ '\n' :: rest).length := by simp; omega
    rw [readlines_newline b hb]
    exact Rows.cons ⟨b, rfl, hb⟩ (rows_readlines rest)
  · cases s with
    | nil => trivial
    | cons c cs =>
      rw [readlines_noNewline (by simp) hn]
      exact ⟨by simp, fun hm => hn (List.mem_of_mem_dropLast hm)⟩
termination_by s.length

theorem Rows.tail {l : Str} {ls : List Str} (h : Rows (l :: ls)) : Rows ls := by
  cases ls with
  | nil => trivial
  | cons l' ls => exact h.2

theorem Rows.head {l : Str} {ls : List Str} (h : Rows (l :: ls)) :
    l ≠ [] ∧ '\n' ∉ l.dropLast := by
  cases ls with
  | nil => exact h
  | cons l' ls =>
    obtain ⟨b, rfl, hb⟩ := h.1
    exact ⟨by simp, by simpa using hb⟩

theorem Rows.mem {ls : List Str} (h : Rows ls) : ∀ l ∈ ls, l ≠ [] ∧ '\n' ∉ l.dropLast := by
  induction ls with
  | nil => simp
  | cons x ls ih =>
    rw [List.forall_mem_cons]
    exact ⟨h.head, ih h.tail⟩

theorem Rows.isLine {l l' : Str} {ls : List Str} (h : Rows (l :: ls)) (hl : l' ∈ ls) :
    IsLine l := by
  cases ls with
  | nil => simp at hl
  | cons x ls => exact h.1

theorem mem_str (n : Int) (c : Char) (h : c ∈ str n) : c = '-' ∨ c.isDigit = true := by
  cases n with
  | ofNat n => exact Or.inr (Nat.isDigit_of_mem_toDigits (by decide) (by decide) h)
  | negSucc n =>
    rcases List.mem_cons.mp h with rfl | h
    · exact Or.inl rfl
    · exact Or.inr (Nat.isDigit_of_mem_toDigits (by decide) (by decide) h)

theorem not_mem_str (n : Int) (c : Char) (h1 : c ≠ '-') (h2 : c.isDigit = false) : c ∉ str n := by
  intro h
  rcases mem_str n c h with rfl | h
  · exact h1 rfl
  · simp [h] at h2

section Loops
variable {σ α β : Type}

theorem bind_eq_ok {x : Except PyErr α} {f : α → Except PyErr β} {b : β} :
    (x >>= f) = .ok b ↔ ∃ a, x = .ok a ∧ f a = .ok b := by
  cases x with
  | error e => simp [bind, Except.bind]
  | ok a => simp [bind, Except.bind]

theorem foldlM_nil_inv {f : σ → α → Except PyErr σ} {s s' : σ}
    (h : ([] : List α).foldlM f s = .ok s') : s' = s := by
  rw [List.foldlM_nil] at h
  exact (Except.ok.inj h).symm

theorem foldlM_cons_inv {f : σ → α → Except PyErr σ} {x : α} {xs : List α} {s s' : σ}
    (h : (x :: xs).foldlM f s = .ok s') : ∃ s₁, f s x = .ok s₁ ∧ xs.foldlM f s₁ = .ok s' := by
  rw [List.foldlM_cons, bind_eq_ok] at h
  exact h

theorem foldlM_cons_ok {f : σ → α → Except PyErr σ} {x : α} {xs : List α} {s s₁ s₂ : σ}
    (hx : f s x = .ok s₁) (hxs : xs.foldlM f s₁ = .ok s₂) : (x :: xs).foldlM f s = .ok s₂ := by
  rw [List.foldlM_cons, bind_eq_ok]
  exact ⟨s₁, hx, hxs⟩

theorem foldlM_append_ok {f : σ → α → Except PyErr σ} {xs ys : List α} {s s₁ s₂ : σ}
    (hx : xs.foldlM f s = .ok s₁) (hy : ys.foldlM f s₁ = .ok s₂) :
    (xs ++ ys).foldlM f s = .ok s₂ := by
  rw [List.foldlM_append, bind_eq_ok]
  exact ⟨s₁, hx, hy⟩

theorem foldlM_passed {f : σ → α → Except PyErr σ} (I : List α → σ → Prop) {xs : List α}
    (hstep : ∀ passed x s s', x ∈ xs → I passed s → f s x = .ok s' → I (passed ++ [x]) s')
    {s s' : σ} (h : xs.foldlM f s = .ok s') (hs : I [] s) : I xs s' := by
  have hrest : ∀ (rest passed : List α) (s : σ), rest ⊆ xs → rest.foldlM f s = .ok s' →
      I passed s → I (passed ++ rest) s' := by
    intro rest
    induction rest with
    | nil =>
      intro passed s _ h hs
      rwa [List.append_nil, foldlM_nil_inv h]
    | cons x rest ih =>
      intro passed s hsub h hs
      obtain ⟨s₁, h₁, h⟩ := foldlM_cons_inv h
      have hnext := ih (passed ++ [x]) s₁ (fun y hy => hsub (List.mem_cons_of_mem x hy)) h
        (hstep passed x s s₁ (hsub List.mem_cons_self) hs h₁)
      rwa [List.append_assoc, List.singleton_append] at hnext
  exact hrest xs [] s (List.Subset.refl xs) h hs

theorem foldlM_invariant {f : σ → α → Except PyErr σ} (P : σ → Prop) {xs : List α}
    (hstep : ∀ s x s', x ∈ xs → P s → f s x = .ok s' → P s') {s s' : σ}
    (h : xs.foldlM f s = .ok s') (hs : P s) : P s' :=
  foldlM_passed (fun _ s => P s) (fun _ x s s' hx hp hf => hstep s x s' hx hp hf) h hs

/-- Where it does not depend on the state whether a step returns, the loop returns if and only if
every step does. -/
theorem foldlM_returns_iff {f : σ → α → Except PyErr σ} {ok : α → Prop}
    (hstep : ∀ s x, (∃ s', f s x = .ok s') ↔ ok x) (xs : List α) (s : σ) :
    (∃ s', xs.foldlM f s = .ok s') ↔ ∀ x ∈ xs, ok x := by
  induction xs generalizing s with
  | nil => exact iff_of_true ⟨s, rfl⟩ (by simp)
  | cons x xs ih =>
    rw [List.forall_mem_cons]
    constructor
    · intro h
      obtain ⟨s', h⟩ := h
      obtain ⟨s₁, h₁, h⟩ := foldlM_cons_inv h
      exact ⟨(hstep s x).mp ⟨s₁, h₁⟩, (ih s₁).mp ⟨s', h⟩⟩
    · intro h
      obtain ⟨hx, hxs⟩ := h
      obtain ⟨s₁, h₁⟩ := (hstep s x).mpr hx
      obtain ⟨s', h⟩ := (ih s₁).mpr hxs
      exact ⟨s', foldlM_cons_ok h₁ h⟩

/-- A loop whose body decodes an element, tests what it decoded and applies it, decodes all
elements, tests them and applies them in order. -/
theorem foldlM_decode_iff {f : σ → α → Except PyErr σ} {read : α → Option β} {P : β → Prop}
    {apply : σ → β → σ}
    (hstep : ∀ s x s', f s x = .ok s' ↔ ∃ y, read x = some y ∧ P y ∧ s' = apply s y)
    (xs : List α) (s s' : σ) :
    xs.foldlM f s = .ok s' ↔
      (∀ x ∈ xs, ∃ y, read x = some y ∧ P y) ∧ s' = (xs.filterMap read).foldl apply s := by
  induction xs generalizing s with
  | nil =>
    constructor
    · intro h
      exact ⟨by simp, foldlM_nil_inv h⟩
    · intro h
      rw [h.2]
      rfl
  | cons x xs ih =>
    rw [List.forall_mem_cons]
    constructor
    · intro h
      obtain ⟨s₁, h₁, h⟩ := foldlM_cons_inv h
      obtain ⟨y, hy, hp, rfl⟩ := (hstep s x s₁).mp h₁
      obtain ⟨hall, he⟩ := (ih (apply s y)).mp h
      exact ⟨⟨⟨y, hy, hp⟩, hall⟩, by rw [he, List.filterMap_cons_some hy, List.foldl_cons]⟩
    · intro h
      obtain ⟨⟨⟨y, hy, hp⟩, hall⟩, he⟩ := h
      rw [List.filterMap_cons_some hy, List.foldl_cons] at he
      exact foldlM_cons_ok ((hstep s x _).mpr ⟨y, hy, hp, rfl⟩) ((ih _).mpr ⟨hall, he⟩)

theorem foldlM_flatMap (f : σ → β → Except PyErr σ) (g : α → List β) (xs : List α) (s : σ) :
    xs.foldlM (fun s x => (g x).foldlM f s) s = (xs.flatMap g).foldlM f s := by
  induction xs generalizing s with
  | nil => rfl
  | cons x xs ih =>
    rw [List.foldlM_cons, List.flatMap_cons, List.foldlM_append]
    cases (g x).foldlM f s with
    | error e => rfl
    | ok s₁ => exact ih s₁

end Loops

end OpenedExtraction.PyText
