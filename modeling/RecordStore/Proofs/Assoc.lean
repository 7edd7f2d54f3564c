import Mathlib.Data.List.Induction
import RecordStore.Assoc
/-!
# Sorted association lists

`Assoc.Sorted` says that the keys strictly ascend. On a sorted list a lookup finds exactly the
bindings there are (`get?_eq_some_iff`), and `upsert` changes the binding of one key and keeps the
list sorted (`mem_upsert`, `sorted_upsert`). Sorted lists that bind alike are equal
(`eq_of_get?_eq`), so `ofList` depends on nothing but the last binding of each key (`get?_ofList`).

A search tree meets these functions at a node, as a list split in two: `get?_append_lt` and its
relatives say in which half they go on.
-/

namespace RecordStore.Assoc

variable {κ β : Type} [Ord κ]

/-- The keys strictly ascend. -/
def Sorted (l : List (κ × β)) : Prop :=
  l.Pairwise fun a b => compare a.1 b.1 = .lt

@[simp] theorem sorted_nil : Sorted ([] : List (κ × β)) := List.Pairwise.nil

theorem sorted_cons {a : κ × β} {l : List (κ × β)} :
    Sorted (a :: l) ↔ (∀ b ∈ l, compare a.1 b.1 = .lt) ∧ Sorted l :=
  List.pairwise_cons

theorem sorted_append_cons {as bs : List (κ × β)} {k : κ} {v : β} (h : Sorted (as ++ (k, v) :: bs)) :
    Sorted as ∧ Sorted bs ∧ (∀ a ∈ as, compare a.1 k = .lt) ∧ (∀ b ∈ bs, compare k b.1 = .lt) := by
  obtain ⟨has, hbs, hcross⟩ := List.pairwise_append.1 h
  obtain ⟨hkb, hbs⟩ := sorted_cons.1 hbs
  exact ⟨has, hbs, fun a ha => hcross a ha _ List.mem_cons_self, hkb⟩

/-! ## Halves of a list -/

section

variable {key k : κ} {v : β} {as bs : List (κ × β)} {write : Option β → β}

theorem get?_append_lt (h : compare key k = .lt) :
    get? key (as ++ (k, v) :: bs) = get? key as := by
  induction as with
  | nil => simp [get?, h]
  | cons a as ih => rw [List.cons_append, get?, get?, ih]

theorem get?_append_gt (h : ∀ a ∈ as, compare key a.1 = .gt) :
    get? key (as ++ bs) = get? key bs := by
  induction as with
  | nil => rfl
  | cons a as ih =>
    rw [List.cons_append, get?, h a List.mem_cons_self]
    exact ih fun b hb => h b (List.mem_cons_of_mem _ hb)

theorem upsert_append_lt (h : compare key k = .lt) :
    upsert key write (as ++ (k, v) :: bs) = upsert key write as ++ (k, v) :: bs := by
  induction as with
  | nil => simp [upsert, h]
  | cons a as ih =>
    rw [List.cons_append, upsert, upsert, ih]
    cases compare key a.1 <;> rfl

theorem upsert_append_gt (h : ∀ a ∈ as, compare key a.1 = .gt) :
    upsert key write (as ++ bs) = as ++ upsert key write bs := by
  induction as with
  | nil => rfl
  | cons a as ih =>
    rw [List.cons_append, upsert, h a List.mem_cons_self]
    simp only [List.cons_append]
    rw [ih fun b hb => h b (List.mem_cons_of_mem _ hb)]

end

/-! ## Lists that are sorted already -/

theorem ofList_concat (l : List (κ × β)) (k : κ) (v : β) :
    ofList (l ++ [(k, v)]) = insert k v (ofList l) :=
  List.foldl_append

theorem ofList_of_sorted [Std.OrientedOrd κ] {l : List (κ × β)} (h : Sorted l) : ofList l = l := by
  induction l using List.reverseRecOn with
  | nil => rfl
  | append_singleton l a ih =>
    obtain ⟨k, v⟩ := a
    obtain ⟨hl, -, hbelow, -⟩ := sorted_append_cons h
    have habove : ∀ b ∈ l, compare k b.1 = .gt := fun b hb => Std.OrientedCmp.gt_iff_lt.2 (hbelow b hb)
    have hlast : upsert k (fun _ => v) (l ++ []) = l ++ upsert k (fun _ => v) [] := upsert_append_gt habove
    rw [List.append_nil] at hlast
    rw [ofList_concat, ih hl]
    exact hlast

section

variable {γ : Type} (f : β → γ)

theorem get?_map (l : List (κ × β)) (key : κ) :
    get? key (l.map fun (k, v) => (k, f v)) = (get? key l).map f := by
  induction l with
  | nil => rfl
  | cons a l ih =>
    rw [List.map_cons, get?, get?, ih]
    cases compare key a.1 <;> rfl

theorem Sorted.map {l : List (κ × β)} (h : Sorted l) : Sorted (l.map fun (k, v) => (k, f v)) :=
  List.pairwise_map.2 h

end

/-! ## What is bound -/

variable [Std.TransOrd κ] [Std.LawfulEqOrd κ]

theorem get?_eq_some_iff {l : List (κ × β)} (h : Sorted l) {key : κ} {v : β} :
    get? key l = some v ↔ (key, v) ∈ l := by
  induction l with
  | nil => simp [get?]
  | cons a l ih =>
    obtain ⟨hal, hl⟩ := sorted_cons.1 h
    -- A key below the head is below everything.
    have below : compare key a.1 = .lt → (key, v) ∉ l := fun hlt hmem => by
      have := Std.TransCmp.lt_trans hlt (hal _ hmem)
      simp at this
    rw [get?, List.mem_cons]
    cases hc : compare key a.1 with
    | lt =>
      have hne : (key, v) ≠ a := fun e => by simp [← e] at hc
      simp [hne, below hc]
    | eq =>
      obtain rfl := Std.LawfulEqCmp.eq_of_compare hc
      have hnot : (a.1, v) ∉ l := fun hmem => by simpa using hal _ hmem
      simp [hnot, Prod.ext_iff, eq_comm]
    | gt =>
      have hne : (key, v) ≠ a := fun e => by simp [← e] at hc
      simp [hne, ih hl]

theorem get?_eq_none_iff {l : List (κ × β)} (h : Sorted l) {key : κ} :
    get? key l = none ↔ ∀ v, (key, v) ∉ l := by
  rw [Option.eq_none_iff_forall_ne_some]
  exact forall_congr' fun v => not_congr (get?_eq_some_iff h)

theorem mem_upsert {l : List (κ × β)} (h : Sorted l) {key k : κ} {v : β} {write : Option β → β} :
    (k, v) ∈ upsert key write l ↔
      (k = key ∧ v = write (get? key l)) ∨ (k ≠ key ∧ (k, v) ∈ l) := by
  induction l with
  | nil => simp [upsert, get?]
  | cons a l ih =>
    obtain ⟨hal, hl⟩ := sorted_cons.1 h
    rw [upsert, get?]
    cases hc : compare key a.1 with
    | lt =>
      have hne : (k, v) ∈ a :: l → k ≠ key := by
        rintro hmem rfl
        rcases List.mem_cons.1 hmem with rfl | hmem
        · simp at hc
        · simpa using Std.TransCmp.lt_trans hc (hal _ hmem)
      simp only [List.mem_cons, Prod.mk.injEq]
      grind
    | eq =>
      obtain rfl := Std.LawfulEqCmp.eq_of_compare hc
      have hne : (k, v) ∈ l → k ≠ a.1 := by
        rintro hmem rfl
        simpa using hal _ hmem
      simp only [List.mem_cons, Prod.ext_iff]
      grind
    | gt =>
      have hne : k = a.1 → k ≠ key := by
        rintro rfl rfl
        simp at hc
      simp only [List.mem_cons, Prod.ext_iff, ih hl]
      grind

theorem sorted_upsert {l : List (κ × β)} (h : Sorted l) (key : κ) (write : Option β → β) :
    Sorted (upsert key write l) := by
  induction l with
  | nil => exact List.pairwise_singleton _ _
  | cons a l ih =>
    obtain ⟨hal, hl⟩ := sorted_cons.1 h
    rw [upsert]
    cases hc : compare key a.1 with
    | lt =>
      refine sorted_cons.2 ⟨fun b hb => ?_, h⟩
      rcases List.mem_cons.1 hb with rfl | hb
      · exact hc
      · exact Std.TransCmp.lt_trans hc (hal b hb)
    | eq => exact sorted_cons.2 ⟨hal, hl⟩
    | gt =>
      refine sorted_cons.2 ⟨fun b hb => ?_, ih hl⟩
      rcases (mem_upsert hl).1 (show (b.1, b.2) ∈ _ from hb) with ⟨rfl, -⟩ | ⟨-, hb⟩
      · exact Std.OrientedCmp.gt_iff_lt.1 hc
      · exact hal _ hb

/-! ## Lists in any order -/

theorem get?_insert [DecidableEq κ] {l : List (κ × β)} (h : Sorted l) (key k : κ) (v : β) :
    get? k (insert key v l) = if k = key then some v else get? k l := by
  apply Option.ext
  intro u
  rw [insert, get?_eq_some_iff (sorted_upsert h key _), mem_upsert h]
  split
  · next hk => simp [hk, eq_comm]
  · next hk => simp [hk, get?_eq_some_iff h]

/-- A sorted list is told by what it binds. -/
theorem eq_of_get?_eq {l m : List (κ × β)} (hl : Sorted l) (hm : Sorted m)
    (h : ∀ key, get? key l = get? key m) : l = m := by
  have nodup {n : List (κ × β)} (hn : Sorted n) : n.Nodup := hn.imp fun {a b} hlt heq => by
    simp [heq] at hlt
  have hmem (a : κ × β) : a ∈ l ↔ a ∈ m := by
    have hbound : get? a.1 l = some a.2 ↔ a ∈ l := get?_eq_some_iff hl
    rw [← hbound, h a.1]
    exact get?_eq_some_iff hm
  have hperm : l.Perm m := (List.perm_ext_iff_of_nodup (nodup hl) (nodup hm)).2 hmem
  refine hperm.eq_of_pairwise (fun a b _ _ hab hba => ?_) hl hm
  have hself := Std.TransCmp.lt_trans hab hba
  simp at hself

theorem sorted_insert {l : List (κ × β)} (h : Sorted l) (key : κ) (v : β) : Sorted (insert key v l) :=
  sorted_upsert h key _

theorem sorted_ofList (l : List (κ × β)) : Sorted (ofList l) := by
  induction l using List.reverseRecOn with
  | nil => exact sorted_nil
  | append_singleton l a ih =>
    rw [ofList_concat]
    exact sorted_insert ih a.1 a.2

/-- The last binding of a key counts. -/
theorem get?_ofList [DecidableEq κ] (l : List (κ × β)) (key : κ) :
    get? key (ofList l) = l.reverse.lookup key := by
  induction l using List.reverseRecOn with
  | nil => rfl
  | append_singleton l a ih =>
    obtain ⟨k, v⟩ := a
    rw [ofList_concat, get?_insert (sorted_ofList l), ih, List.reverse_append, List.reverse_singleton,
      List.singleton_append, List.lookup_cons]
    by_cases hkey : key = k
    · simp [hkey]
    · simp [hkey, beq_eq_false_iff_ne.2 hkey]

end RecordStore.Assoc
