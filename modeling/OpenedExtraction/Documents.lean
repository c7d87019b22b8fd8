import OpenedExtraction.PyText

/-! Regular expressions without metacharacters other than the dot, and tables of documents that
are searched and updated as the documentation of TinyDB says. No program is mentioned. -/
namespace OpenedExtraction.Documents
open OpenedExtraction.PyText

def metacharacters : Str := "^$*+?\x7b\x7d[]\\|()".toList

def Plain (pattern : Str) : Prop := ∀ c ∈ pattern, c ∉ metacharacters

theorem plain_of_all {pattern : Str}
    (h : (pattern.all fun c => decide (c ∉ metacharacters)) = true) : Plain pattern :=
  fun c hc => of_decide_eq_true (List.all_eq_true.mp h c hc)

/-- A dot stands for any character but a line feed. -/
def fits (p c : Char) : Bool := if p = '.' then c ≠ '\n' else c = p

/-- re.match(pattern, s) for a plain pattern: it fits the start of the text. -/
def reMatch : Str → Str → Bool
  | [], _ => true
  | _ :: _, [] => false
  | p :: ps, c :: cs => fits p c && reMatch ps cs

/-- re.search(pattern, s) for a plain pattern: it fits somewhere in the text. -/
def reSearch (pattern : Str) : Str → Bool
  | [] => reMatch pattern []
  | c :: cs => reMatch pattern (c :: cs) || reSearch pattern cs

theorem fits_self (c : Char) : fits c c = true := by
  rw [fits]
  by_cases h : c = '.'
  · simp [h]
  · simp [h]

theorem reMatch_self (s : Str) : reMatch s s = true := by
  induction s with
  | nil => rfl
  | cons c cs ih => rw [reMatch, fits_self, ih, Bool.and_self]

theorem reSearch_of_reMatch {pattern s : Str} (h : reMatch pattern s = true) :
    reSearch pattern s = true := by
  cases s with
  | nil => exact h
  | cons c cs => rw [reSearch, h, Bool.true_or]

theorem reSearch_of_suffix {pattern s : Str} (h : pattern <:+ s) : reSearch pattern s = true := by
  obtain ⟨a, rfl⟩ := h
  induction a with
  | nil => exact reSearch_of_reMatch (reMatch_self pattern)
  | cons c a ih => rw [List.cons_append, reSearch, ih, Bool.or_true]

/-- The operations of TinyDB on a table, with what is documented of them: search returns the
documents that satisfy a query, update changes these documents, and the two tests of a string
field are re.search and re.match. A field that is missing or no string satisfies no test. -/
structure TinyDB (Doc : Type) where
  search : List Doc → (Doc → Bool) → List Doc
  update : List Doc → (Doc → Doc) → (Doc → Bool) → List Doc
  fieldSearch : Str → Option Str → Bool
  fieldMatches : Str → Option Str → Bool
  search_eq : ∀ docs cond, search docs cond = docs.filter cond
  update_eq : ∀ docs f cond, update docs f cond = docs.map fun d => if cond d then f d else d
  fieldSearch_eq : ∀ pattern value, Plain pattern →
    fieldSearch pattern value = value.any (reSearch pattern)
  fieldMatches_eq : ∀ pattern value, Plain pattern →
    fieldMatches pattern value = value.any (reMatch pattern)

def TinyDB.ofLists (Doc : Type) : TinyDB Doc where
  search docs cond := docs.filter cond
  update docs f cond := docs.map fun d => if cond d then f d else d
  fieldSearch pattern value := value.any (reSearch pattern)
  fieldMatches pattern value := value.any (reMatch pattern)
  search_eq _ _ := rfl
  update_eq _ _ _ := rfl
  fieldSearch_eq _ _ _ := rfl
  fieldMatches_eq _ _ _ := rfl

end OpenedExtraction.Documents
