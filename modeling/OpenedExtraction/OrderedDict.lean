import Mathlib.Data.List.Basic
import Mathlib.Data.List.Nodup
import Mathlib.Data.List.Lookmap
import Mathlib.Data.List.Induction

/-! Dictionaries that remember insertion order. Setting a key that is already present
keeps its position; a new key goes to the end. -/
namespace OpenedExtraction
variable {κ ν : Type*} [DecidableEq κ]

structure OrderedDict (κ ν : Type*) where
  items : List (κ × ν)
  nodup : (items.map Prod.fst).Nodup

namespace OrderedDict

def empty : OrderedDict κ ν := ⟨[], List.nodup_nil⟩

def keys (d : OrderedDict κ ν) : List κ := d.items.map Prod.fst

def get? (d : OrderedDict κ ν) (k : κ) : Option ν :=
  (d.items.find? (fun p => p.1 = k)).map Prod.snd

def getD (d : OrderedDict κ ν) (k : κ) (v : ν) : ν := (d.get? k).getD v

private def put (k : κ) (v : ν) (items : List (κ × ν)) : List (κ × ν) :=
  if k ∈ items.map Prod.fst then items.map (fun p => if p.1 = k then (k, v) else p)
  else items ++ [(k, v)]

private theorem keys_put (k : κ) (v : ν) (items : List (κ × ν)) :
    (put k v items).map Prod.fst =
      if k ∈ items.map Prod.fst then items.map Prod.fst else items.map Prod.fst ++ [k] := by
  by_cases h : k ∈ items.map Prod.fst
  · simp only [put, h, if_true, List.map_map]
    apply List.map_congr_left
    intro p _
    by_cases hp : p.1 = k <;> simp [hp]
  · simp only [put, h, if_false, List.map_append, List.map_cons, List.map_nil]

def set (d : OrderedDict κ ν) (k : κ) (v : ν) : OrderedDict κ ν where
  items := put k v d.items
  nodup := by
    rw [keys_put]
    by_cases h : k ∈ d.items.map Prod.fst
    · simpa only [h, if_true] using d.nodup
    · simp only [h, if_false]
      exact List.nodup_append.mpr ⟨d.nodup, by simp, fun a ha b hb hab => by
        simp only [List.mem_singleton] at hb
        exact h (hb ▸ hab ▸ ha)⟩

theorem keys_set (d : OrderedDict κ ν) (k : κ) (v : ν) :
    (d.set k v).keys = if k ∈ d.keys then d.keys else d.keys ++ [k] := keys_put k v d.items

theorem keys_set_of_mem (d : OrderedDict κ ν) {k : κ} (v : ν) (h : k ∈ d.keys) :
    (d.set k v).keys = d.keys := by
  rw [keys_set, if_pos h]

theorem mem_keys_set (d : OrderedDict κ ν) (k k' : κ) (v : ν) :
    k' ∈ (d.set k v).keys ↔ k' = k ∨ k' ∈ d.keys := by
  rw [keys_set]
  by_cases h : k ∈ d.keys
  · rw [if_pos h]
    exact ⟨Or.inr, fun h' => h'.elim (fun e => e ▸ h) id⟩
  · rw [if_neg h, List.mem_append, List.mem_singleton, or_comm]

private theorem find_replace (k k' : κ) (v : ν) (items : List (κ × ν))
    (h : k ∈ items.map Prod.fst) :
    ((items.map (fun p => if p.1 = k then (k, v) else p)).find? (fun p => p.1 = k')).map
        Prod.snd =
      if k' = k then some v else (items.find? (fun p => p.1 = k')).map Prod.snd := by
  induction items with
  | nil => simp at h
  | cons p items ih =>
    by_cases hp : p.1 = k
    · by_cases hk : k' = k
      · simp [hp, hk]
      · have hn : (k, v).1 ≠ k' := Ne.symm hk
        have hpn : p.1 ≠ k' := by rw [hp]; exact Ne.symm hk
        by_cases hm : k ∈ items.map Prod.fst
        · have hi := ih hm
          simp only [hk, if_false] at hi ⊢
          simpa [hp, Ne.symm hk] using hi
        · have he : items.map (fun p => if p.1 = k then (k, v) else p) = items := by
            conv_rhs => rw [← List.map_id items]
            apply List.map_congr_left
            intro q hq
            rw [if_neg]
            · rfl
            · rintro rfl
              exact hm (List.mem_map_of_mem hq)
          simp [hp, hk, Ne.symm hk, he]
    · have hm : k ∈ items.map Prod.fst := by
        rcases List.mem_cons.mp h with h | h
        · exact absurd h.symm hp
        · exact h
      have hi := ih hm
      by_cases hpk : p.1 = k'
      · have hk : k' ≠ k := fun e => hp (hpk.trans e)
        simp [hpk, hk]
      · simpa [hp, hpk] using hi

theorem get?_set (d : OrderedDict κ ν) (k k' : κ) (v : ν) :
    (d.set k v).get? k' = if k' = k then some v else d.get? k' := by
  change ((put k v d.items).find? _).map _ = _
  by_cases h : k ∈ d.items.map Prod.fst
  · rw [put, if_pos h, find_replace k k' v d.items h]
    rfl
  · rw [put, if_neg h, List.find?_append]
    by_cases hk : k' = k
    · have hn : d.items.find? (fun p => p.1 = k') = none := by
        rw [List.find?_eq_none]
        intro p hp
        simp only [decide_eq_true_eq]
        rintro rfl
        exact h (hk ▸ List.mem_map_of_mem hp)
      rw [hn, if_pos hk]
      simp [hk]
    · simp [get?, hk, Ne.symm hk]

@[simp] theorem get?_empty (k : κ) : (empty : OrderedDict κ ν).get? k = none := rfl

omit [DecidableEq κ] in
@[simp] theorem keys_empty : (empty : OrderedDict κ ν).keys = [] := rfl

theorem get?_eq_none (d : OrderedDict κ ν) (k : κ) : d.get? k = none ↔ k ∉ d.keys := by
  simp only [get?, Option.map_eq_none_iff, List.find?_eq_none, keys, List.mem_map]
  constructor
  · rintro h ⟨p, hp, rfl⟩
    simpa using h p hp
  · intro h p hp
    simp only [decide_eq_true_eq]
    exact fun e => h ⟨p, hp, e⟩

theorem mem_keys_iff (d : OrderedDict κ ν) (k : κ) : k ∈ d.keys ↔ ∃ v, d.get? k = some v := by
  rw [← not_iff_not, ← get?_eq_none]
  simp [← Option.ne_none_iff_exists']

theorem get?_of_mem (d : OrderedDict κ ν) {k : κ} {v : ν} (h : (k, v) ∈ d.items) :
    d.get? k = some v := by
  have hk : k ∈ d.keys := List.mem_map_of_mem (f := Prod.fst) h
  cases hf : d.items.find? (fun p => p.1 = k) with
  | none => exact absurd hk ((d.get?_eq_none k).mp (by simp [get?, hf]))
  | some p =>
    have hp := List.mem_of_find?_eq_some hf
    have he : p.1 = k := by simpa using List.find?_some hf
    have hpk : p = (k, v) := List.inj_on_of_nodup_map d.nodup hp h he
    simp [get?, hf, hpk]

theorem mem_of_get? (d : OrderedDict κ ν) {k : κ} {v : ν} (h : d.get? k = some v) :
    (k, v) ∈ d.items := by
  simp only [get?, Option.map_eq_some_iff] at h
  obtain ⟨p, hp, rfl⟩ := h
  have hk := List.find?_some hp
  simp only [decide_eq_true_eq] at hk
  rw [← hk]
  exact List.mem_of_find?_eq_some hp

theorem items_eq (d : OrderedDict κ ν) :
    d.items = d.keys.filterMap (fun k => (d.get? k).map (fun v => (k, v))) := by
  have hm : ∀ p ∈ d.items, (d.get? p.1).map (fun v => (p.1, v)) = some p := by
    intro p hp
    rw [d.get?_of_mem (show (p.1, p.2) ∈ d.items from hp)]
    rfl
  rw [keys, List.filterMap_map]
  symm
  calc d.items.filterMap ((fun k => (d.get? k).map (fun v => (k, v))) ∘ Prod.fst)
      = d.items.filterMap some := List.filterMap_congr hm
    _ = d.items := List.filterMap_some

section Folds
variable {α : Type*} (key : α → κ)

theorem keys_foldl_set [BEq κ] [LawfulBEq κ] (val : OrderedDict κ ν → α → ν) (xs : List α) :
    (xs.foldl (fun d x => d.set (key x) (val d x)) empty).keys = (xs.map key).eraseDups := by
  induction xs using List.reverseRecOn with
  | nil => simp
  | append_singleton xs x ih =>
    rw [List.foldl_append, List.foldl_cons, List.foldl_nil, keys_set, ih, List.map_append,
      List.eraseDups_append]
    by_cases hx : key x ∈ xs.map key
    · rw [if_pos (List.mem_eraseDups.mpr hx), List.map_singleton, List.removeAll,
        List.filter_cons_of_neg (by simpa using hx)]
      simp
    · rw [if_neg (fun hm => hx (List.mem_eraseDups.mp hm)), List.map_singleton, List.removeAll,
        List.filter_cons_of_pos (by simpa using hx)]
      simp [List.eraseDups_cons]

theorem get?_foldl_set (val : α → ν) (xs : List α) (k : κ) :
    (xs.foldl (fun d x => d.set (key x) (val x)) empty).get? k =
      ((xs.filter fun x => key x = k).getLast?).map val := by
  induction xs using List.reverseRecOn with
  | nil => rfl
  | append_singleton xs x ih =>
    rw [List.foldl_append, List.foldl_cons, List.foldl_nil, get?_set, ih, List.filter_append]
    by_cases hx : key x = k
    · simp [hx]
    · simp [hx, Ne.symm hx]

end Folds

theorem ext_get? {d e : OrderedDict κ ν} (hk : d.keys = e.keys)
    (hg : ∀ k, d.get? k = e.get? k) : d = e := by
  have hi : d.items = e.items := by
    rw [items_eq d, items_eq e, hk]
    apply List.filterMap_congr
    intro k _
    rw [hg k]
  cases d
  cases e
  cases hi
  rfl

section Lists
variable {α : Type*}

/-- d[k].append(x) for a dictionary of lists. -/
def appendAt (d : OrderedDict κ (List α)) (k : κ) (x : α) : OrderedDict κ (List α) :=
  d.set k (d.getD k [] ++ [x])

def elements (d : OrderedDict κ (List α)) : List α := d.items.flatMap Prod.snd

private theorem elements_replace (k : κ) (x : α) (items : List (κ × List α))
    (hn : (items.map Prod.fst).Nodup) {xs : List α} (h : (k, xs) ∈ items) :
    ((items.map fun p => if p.1 = k then (k, xs ++ [x]) else p).flatMap Prod.snd).Perm
      (items.flatMap Prod.snd ++ [x]) := by
  induction items with
  | nil => simp at h
  | cons p items ih =>
    rw [List.map_cons, List.nodup_cons] at hn
    by_cases hp : p.1 = k
    · have hk : k ∉ items.map Prod.fst := by rw [← hp]; exact hn.1
      have hpx : p = (k, xs) := by
        cases List.mem_cons.mp h with
        | inl he => exact he.symm
        | inr hm => exact absurd (List.mem_map_of_mem (f := Prod.fst) hm) hk
      have hrest : items.map (fun p => if p.1 = k then (k, xs ++ [x]) else p) = items := by
        conv_rhs => rw [← List.map_id items]
        refine List.map_congr_left fun q hq => if_neg fun hqk => ?_
        exact hk (hqk ▸ List.mem_map_of_mem (f := Prod.fst) hq)
      rw [List.map_cons, hrest, if_pos hp, hpx, List.flatMap_cons, List.flatMap_cons,
        List.append_assoc, List.append_assoc]
      exact List.Perm.append_left xs List.perm_append_comm
    · have hm : (k, xs) ∈ items := by
        cases List.mem_cons.mp h with
        | inl he => exact absurd (congrArg Prod.fst he.symm) hp
        | inr hm => exact hm
      rw [List.map_cons, if_neg hp, List.flatMap_cons, List.flatMap_cons, List.append_assoc]
      exact List.Perm.append_left p.2 (ih hn.2 hm)

theorem elements_appendAt (d : OrderedDict κ (List α)) (k : κ) (x : α) :
    (d.appendAt k x).elements.Perm (d.elements ++ [x]) := by
  change ((put k _ d.items).flatMap Prod.snd).Perm (d.items.flatMap Prod.snd ++ [x])
  by_cases h : k ∈ d.items.map Prod.fst
  · obtain ⟨xs, hxs⟩ := (d.mem_keys_iff k).mp h
    rw [put, if_pos h, getD, hxs, Option.getD_some]
    exact elements_replace k x d.items d.nodup (d.mem_of_get? hxs)
  · rw [put, if_neg h, getD, (d.get?_eq_none k).mpr h]
    simp

theorem elements_foldl_appendAt (ps : List (κ × α)) (d : OrderedDict κ (List α)) :
    (ps.foldl (fun d p => d.appendAt p.1 p.2) d).elements.Perm
      (d.elements ++ ps.map Prod.snd) := by
  induction ps generalizing d with
  | nil => simp
  | cons p ps ih =>
    rw [List.foldl_cons, List.map_cons]
    have hadd := (d.elements_appendAt p.1 p.2).append_right (ps.map Prod.snd)
    rw [List.append_assoc, List.singleton_append] at hadd
    exact (ih _).trans hadd

theorem getD_foldl_appendAt (ps : List (κ × α)) (d : OrderedDict κ (List α)) (k : κ) :
    (ps.foldl (fun d p => d.appendAt p.1 p.2) d).getD k [] =
      d.getD k [] ++ (ps.filter fun p => p.1 = k).map Prod.snd := by
  induction ps generalizing d with
  | nil => simp
  | cons p ps ih =>
    rw [List.foldl_cons, ih, appendAt, getD, get?_set]
    by_cases hk : k = p.1
    · rw [if_pos hk, Option.getD_some, List.filter_cons_of_pos (by simpa using hk.symm), ← hk]
      simp
    · rw [if_neg hk, List.filter_cons_of_neg (by simpa using Ne.symm hk)]
      rfl

end Lists

end OrderedDict
end OpenedExtraction
