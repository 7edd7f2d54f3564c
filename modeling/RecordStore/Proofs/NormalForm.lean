import Mathlib.Algebra.Order.BigOperators.Group.List
import Mathlib.Algebra.Order.Group.Nat
import RecordStore.Predicate.Simplify
/-!
# The normal form of predicates

`Predicate.IsNormal` says what a simplified predicate looks like, with no word on how it is reached:
it is a constant or contains none, every group has at least two terms and none of its own kind
directly under it, negations do not follow each other, and a choice has at least two keys. It is
said of `Predicate.nodes`, the predicates that occur in a predicate at any depth.

One pass of simplification reaches this form and adds no nodes. The predicates in normal form are
exactly those that it leaves as they are, so that a second pass changes nothing
(`simplify_normalizes`).

A rewritten term can turn into a constant, a group or a negation, which the term above it has to
absorb. So what goes through the induction is `Settled`: to be a constant, or else to be in order at
every node.
-/

namespace RecordStore.Predicate

variable {R : Type}

mutual

/-- The predicates that occur in a predicate, itself first. -/
def nodes : Predicate R → List (Predicate R)
  | .always => [.always]
  | .never => [.never]
  | .compare p c => [.compare p c]
  | .all terms => .all terms :: nodesOfAll terms
  | .any terms => .any terms :: nodesOfAll terms
  | .not term => .not term :: nodes term

def nodesOfAll : List (Predicate R) → List (Predicate R)
  | [] => []
  | term :: rest => nodes term ++ nodesOfAll rest

end

@[simp] theorem nodesOfAll_eq (terms : List (Predicate R)) :
    nodesOfAll terms = terms.flatMap nodes := by
  induction terms with
  | nil => rfl
  | cons term rest ih => rw [nodesOfAll, List.flatMap_cons, ih]

/-- Whether a predicate is in the form that simplification is to bring it into. -/
structure IsNormal (p : Predicate R) : Prop where
  constant : p = .always ∨ p = .never ∨ .always ∉ p.nodes ∧ .never ∉ p.nodes
  all (terms : List (Predicate R)) (h : .all terms ∈ p.nodes) :
    2 ≤ terms.length ∧ ∀ inner, .all inner ∉ terms
  any (terms : List (Predicate R)) (h : .any terms ∈ p.nodes) :
    2 ≤ terms.length ∧ ∀ inner, .any inner ∉ terms
  not (inner : Predicate R) : .not (.not inner) ∉ p.nodes
  oneOf (q : Property R) (ks : List Key) (h : .compare q (.oneOf ks) ∈ p.nodes) : 2 ≤ ks.length

/-! ## Settled predicates -/

variable {p : Predicate R} {terms : List (Predicate R)}

/-- Whether a predicate is no constant and nothing is to be done at its root. -/
def Tidy : Predicate R → Prop
  | .always => False
  | .never => False
  | .compare _ (.oneOf ks) => 2 ≤ ks.length
  | .compare _ _ => True
  | .all terms => 2 ≤ terms.length ∧ ∀ inner, .all inner ∉ terms
  | .any terms => 2 ≤ terms.length ∧ ∀ inner, .any inner ∉ terms
  | .not term => ∀ inner, term ≠ .not inner

/-- Whether nothing is to be done anywhere in a predicate, and it contains no constant. -/
def Solid (p : Predicate R) : Prop :=
  ∀ node ∈ p.nodes, node.Tidy

def Settled (p : Predicate R) : Prop :=
  p = .always ∨ p = .never ∨ p.Solid

theorem Solid.ne_always (h : p.Solid) : p ≠ .always := by
  rintro rfl
  simp [Solid, nodes, Tidy] at h

theorem Solid.ne_never (h : p.Solid) : p ≠ .never := by
  rintro rfl
  simp [Solid, nodes, Tidy] at h

theorem solid_compare {q : Property R} {c : Comparison} :
    (compare q c).Solid ↔ (compare q c).Tidy := by
  simp [Solid, nodes]

theorem solid_all : (all terms).Solid ↔ (all terms).Tidy ∧ ∀ term ∈ terms, term.Solid := by
  simp only [Solid, nodes, nodesOfAll_eq, List.forall_mem_cons, List.forall_mem_flatMap]

theorem solid_any : (any terms).Solid ↔ (any terms).Tidy ∧ ∀ term ∈ terms, term.Solid := by
  simp only [Solid, nodes, nodesOfAll_eq, List.forall_mem_cons, List.forall_mem_flatMap]

theorem solid_not : p.not.Solid ↔ p.not.Tidy ∧ p.Solid := by
  simp only [Solid, nodes, List.forall_mem_cons]

theorem Settled.solid (h : p.Settled) (halways : p ≠ .always) (hnever : p ≠ .never) : p.Solid :=
  (h.resolve_left halways).resolve_left hnever

theorem Solid.isNormal (h : p.Solid) : p.IsNormal where
  constant := .inr (.inr ⟨h .always, h .never⟩)
  all _ hmem := h _ hmem
  any _ hmem := h _ hmem
  not inner hmem := h _ hmem inner rfl
  oneOf _ _ hmem := h _ hmem

theorem isNormal_iff_settled : p.IsNormal ↔ p.Settled := by
  constructor
  · intro h
    rcases h.constant with hp | hp | ⟨halways, hnever⟩
    · exact .inl hp
    · exact .inr (.inl hp)
    · refine .inr (.inr fun node hnode => ?_)
      cases node with
      | always => exact halways hnode
      | never => exact hnever hnode
      | compare q c =>
        cases c with
        | oneOf ks => exact h.oneOf q ks hnode
        | _ k => trivial
      | all terms => exact h.all terms hnode
      | any terms => exact h.any terms hnode
      | not term =>
        rintro inner rfl
        exact h.not inner hnode
  · rintro (rfl | rfl | h)
    · constructor <;> simp [nodes]
    · constructor <;> simp [nodes]
    · exact h.isNormal

/-! ## One pass -/

theorem settled_negate (h : p.Settled) : (negate p).Settled := by
  rcases h with rfl | rfl | h
  · exact .inr (.inl rfl)
  · exact .inl rfl
  · cases p with
    | always => exact absurd rfl h.ne_always
    | never => exact absurd rfl h.ne_never
    | not term => exact .inr (.inr (solid_not.1 h).2)
    | _ => exact .inr (.inr (solid_not.2 ⟨fun _ => nofun, h⟩))

theorem settled_simplifyComparison (q : Property R) (c : Comparison) :
    (simplifyComparison q c).Settled := by
  cases c with
  | oneOf ks =>
    match ks with
    | [] => exact .inr (.inl rfl)
    | [k] => exact .inr (.inr (solid_compare.2 trivial))
    | _ :: _ :: _ => exact .inr (.inr (solid_compare.2 (by simp [Tidy])))
  | _ k => exact .inr (.inr (solid_compare.2 trivial))

/-- What a settled term adds to a conjunction is in order, and none of it is a conjunction. -/
theorem solid_of_mem_termsOfAll {sub : Predicate R} (h : p.Settled) (hnever : p ≠ .never)
    (hsub : sub ∈ termsOfAll p) : sub.Solid ∧ ∀ inner, sub ≠ .all inner := by
  by_cases halways : p = .always
  · rw [halways] at hsub
    cases hsub
  · have hsolid := h.solid halways hnever
    cases p with
    | always => exact absurd rfl halways
    | all terms =>
      obtain ⟨⟨-, hnested⟩, hterms⟩ := solid_all.1 hsolid
      exact ⟨hterms sub hsub, fun inner hinner => hnested inner (hinner ▸ hsub)⟩
    | _ =>
      obtain rfl := List.mem_singleton.1 hsub
      exact ⟨hsolid, fun _ => nofun⟩

theorem solid_of_mem_termsOfAny {sub : Predicate R} (h : p.Settled) (halways : p ≠ .always)
    (hsub : sub ∈ termsOfAny p) : sub.Solid ∧ ∀ inner, sub ≠ .any inner := by
  by_cases hnever : p = .never
  · rw [hnever] at hsub
    cases hsub
  · have hsolid := h.solid halways hnever
    cases p with
    | never => exact absurd rfl hnever
    | any terms =>
      obtain ⟨⟨-, hnested⟩, hterms⟩ := solid_any.1 hsolid
      exact ⟨hterms sub hsub, fun inner hinner => hnested inner (hinner ▸ hsub)⟩
    | _ =>
      obtain rfl := List.mem_singleton.1 hsub
      exact ⟨hsolid, fun _ => nofun⟩

/-! ## Groups -/

/-- A group of opened terms: the unit if there are none, a single term by itself. -/
def gather (unit : Predicate R) (group : List (Predicate R) → Predicate R) :
    List (Predicate R) → Predicate R
  | [] => unit
  | [term] => term
  | terms => group terms

theorem isNever_iff : isNever p = true ↔ p = .never := by
  cases p <;> simp [isNever]

theorem isAlways_iff : isAlways p = true ↔ p = .always := by
  cases p <;> simp [isAlways]

theorem conjoin_of_mem (h : .never ∈ terms) : conjoin terms = .never :=
  if_pos (List.any_eq_true.2 ⟨.never, h, rfl⟩)

theorem conjoin_of_not_mem (h : .never ∉ terms) :
    conjoin terms = gather .always .all (terms.flatMap termsOfAll) := by
  have hnone : ¬ terms.any isNever = true := by
    rw [List.any_eq_true]
    rintro ⟨term, hterm, hn⟩
    exact h (isNever_iff.1 hn ▸ hterm)
  rw [conjoin, if_neg hnone]
  rfl

theorem disjoin_of_mem (h : .always ∈ terms) : disjoin terms = .always :=
  if_pos (List.any_eq_true.2 ⟨.always, h, rfl⟩)

theorem disjoin_of_not_mem (h : .always ∉ terms) :
    disjoin terms = gather .never .any (terms.flatMap termsOfAny) := by
  have hnone : ¬ terms.any isAlways = true := by
    rw [List.any_eq_true]
    rintro ⟨term, hterm, ha⟩
    exact h (isAlways_iff.1 ha ▸ hterm)
  rw [disjoin, if_neg hnone]
  rfl

theorem length_flatMap_le {α β : Type} {as : List α} {f g : α → List β}
    (h : ∀ a ∈ as, (f a).length ≤ (g a).length) : (as.flatMap f).length ≤ (as.flatMap g).length := by
  rw [List.length_flatMap, List.length_flatMap]
  exact List.sum_le_sum h

section Gather

variable {unit : Predicate R} {group : List (Predicate R) → Predicate R}
  {opened : Predicate R → List (Predicate R)}

theorem gather_of_two_le (h : 2 ≤ terms.length) : gather unit group terms = group terms := by
  match terms with
  | _ :: _ :: _ => rfl

/-- A group is in order if what the terms add to it is, and none of it is a group of the same kind. -/
theorem settled_gather (hunit : unit.Settled)
    (hgroup : ∀ subs, (group subs).Solid ↔
      (2 ≤ subs.length ∧ ∀ inner, group inner ∉ subs) ∧ ∀ sub ∈ subs, sub.Solid)
    (hopened : ∀ term ∈ terms, ∀ sub ∈ opened term, sub.Solid ∧ ∀ inner, sub ≠ group inner) :
    (gather unit group (terms.flatMap opened)).Settled := by
  have hsubs : ∀ sub ∈ terms.flatMap opened, sub.Solid ∧ ∀ inner, sub ≠ group inner :=
    List.forall_mem_flatMap.2 hopened
  generalize terms.flatMap opened = subs at hsubs
  match subs with
  | [] => exact hunit
  | [sub] => exact .inr (.inr (hsubs sub (List.mem_singleton_self sub)).1)
  | first :: second :: rest =>
    have halone : ∀ inner, group inner ∉ first :: second :: rest :=
      fun inner hinner => (hsubs _ hinner).2 inner rfl
    exact .inr (.inr ((hgroup _).2 ⟨⟨by simp, halone⟩, fun sub hsub => (hsubs sub hsub).1⟩))

/-- A group has at most one node of its own. -/
theorem length_nodes_gather (hunit : unit.nodes.length = 1)
    (hgroup : ∀ subs, (group subs).nodes = group subs :: subs.flatMap nodes)
    (hopened : ∀ term, ((opened term).flatMap nodes).length ≤ term.nodes.length) :
    (gather unit group (terms.flatMap opened)).nodes.length ≤ (terms.flatMap nodes).length + 1 := by
  have hsubs : ((terms.flatMap opened).flatMap nodes).length ≤ (terms.flatMap nodes).length := by
    rw [List.flatMap_assoc]
    exact length_flatMap_le fun term _ => hopened term
  generalize terms.flatMap opened = subs at hsubs
  match subs with
  | [] =>
    rw [gather, hunit]
    omega
  | [sub] =>
    rw [List.flatMap_singleton] at hsubs
    exact Nat.le_succ_of_le hsubs
  | first :: second :: rest =>
    rw [gather_of_two_le (by simp), hgroup, List.length_cons]
    exact Nat.succ_le_succ hsubs

/-- A group that opens no term stays as it is. -/
theorem gather_of_alone (htwo : 2 ≤ terms.length) (h : ∀ term ∈ terms, opened term = [term]) :
    gather unit group (terms.flatMap opened) = group terms := by
  rw [List.flatMap_congr h, List.flatMap_singleton', gather_of_two_le htwo]

end Gather

theorem settled_conjoin (h : ∀ term ∈ terms, term.Settled) : (conjoin terms).Settled := by
  by_cases hnever : .never ∈ terms
  · rw [conjoin_of_mem hnever]
    exact .inr (.inl rfl)
  · rw [conjoin_of_not_mem hnever]
    refine settled_gather (.inl rfl) (fun _ => solid_all) fun term hterm sub hsub => ?_
    exact solid_of_mem_termsOfAll (h term hterm) (ne_of_mem_of_not_mem hterm hnever) hsub

theorem settled_disjoin (h : ∀ term ∈ terms, term.Settled) : (disjoin terms).Settled := by
  by_cases halways : .always ∈ terms
  · rw [disjoin_of_mem halways]
    exact .inl rfl
  · rw [disjoin_of_not_mem halways]
    refine settled_gather (.inr (.inl rfl)) (fun _ => solid_any) fun term hterm sub hsub => ?_
    exact solid_of_mem_termsOfAny (h term hterm) (ne_of_mem_of_not_mem hterm halways) hsub

theorem settled_simplify : ∀ p : Predicate R, p.simplify.Settled
  | .always => .inl rfl
  | .never => .inr (.inl rfl)
  | .compare q c => settled_simplifyComparison q c
  | .not term => settled_negate (settled_simplify term)
  | .all terms => by
    have each (term) (_ : term ∈ terms) := settled_simplify term
    rw [simplify, simplifyList_eq]
    exact settled_conjoin (List.forall_mem_map.2 each)
  | .any terms => by
    have each (term) (_ : term ∈ terms) := settled_simplify term
    rw [simplify, simplifyList_eq]
    exact settled_disjoin (List.forall_mem_map.2 each)

/-! ## Nodes -/

theorem length_nodes_negate (p : Predicate R) : (negate p).nodes.length ≤ p.nodes.length + 1 := by
  cases p with
  | not term =>
    simp only [negate, nodes, List.length_cons]
    omega
  | _ => simp [negate, nodes]

theorem length_nodes_termsOfAll (p : Predicate R) :
    ((termsOfAll p).flatMap nodes).length ≤ p.nodes.length := by
  cases p <;> simp [termsOfAll, nodes]

theorem length_nodes_termsOfAny (p : Predicate R) :
    ((termsOfAny p).flatMap nodes).length ≤ p.nodes.length := by
  cases p <;> simp [termsOfAny, nodes]

theorem length_nodes_conjoin (terms : List (Predicate R)) :
    (conjoin terms).nodes.length ≤ (terms.flatMap nodes).length + 1 := by
  by_cases hnever : .never ∈ terms
  · simp [conjoin_of_mem hnever, nodes]
  · rw [conjoin_of_not_mem hnever]
    exact length_nodes_gather rfl (by simp [nodes]) length_nodes_termsOfAll

theorem length_nodes_disjoin (terms : List (Predicate R)) :
    (disjoin terms).nodes.length ≤ (terms.flatMap nodes).length + 1 := by
  by_cases halways : .always ∈ terms
  · simp [disjoin_of_mem halways, nodes]
  · rw [disjoin_of_not_mem halways]
    exact length_nodes_gather rfl (by simp [nodes]) length_nodes_termsOfAny

theorem length_nodes_simplifyComparison (q : Property R) (c : Comparison) :
    (simplifyComparison q c).nodes.length = 1 := by
  unfold simplifyComparison
  split <;> rfl

theorem length_nodes_simplify : ∀ p : Predicate R, p.simplify.nodes.length ≤ p.nodes.length
  | .always => Nat.le_refl 1
  | .never => Nat.le_refl 1
  | .compare q c => Nat.le_of_eq (length_nodes_simplifyComparison q c)
  | .not term => (length_nodes_negate _).trans (Nat.succ_le_succ (length_nodes_simplify term))
  | .all terms => by
    have each (term) (_ : term ∈ terms) := length_nodes_simplify term
    rw [simplify, simplifyList_eq, nodes, nodesOfAll_eq]
    refine (length_nodes_conjoin _).trans (Nat.succ_le_succ ?_)
    rw [List.flatMap_map]
    exact length_flatMap_le each
  | .any terms => by
    have each (term) (_ : term ∈ terms) := length_nodes_simplify term
    rw [simplify, simplifyList_eq, nodes, nodesOfAll_eq]
    refine (length_nodes_disjoin _).trans (Nat.succ_le_succ ?_)
    rw [List.flatMap_map]
    exact length_flatMap_le each

/-! ## Fixed points -/

theorem termsOfAll_of_ne (halways : p ≠ .always) (hall : ∀ inner, p ≠ .all inner) :
    termsOfAll p = [p] := by
  cases p with
  | always => exact absurd rfl halways
  | all terms => exact absurd rfl (hall terms)
  | _ => rfl

theorem termsOfAny_of_ne (hnever : p ≠ .never) (hany : ∀ inner, p ≠ .any inner) :
    termsOfAny p = [p] := by
  cases p with
  | never => exact absurd rfl hnever
  | any terms => exact absurd rfl (hany terms)
  | _ => rfl

theorem conjoin_of_solid (h : (all terms).Solid) : conjoin terms = .all terms := by
  obtain ⟨⟨htwo, hnested⟩, hterms⟩ := solid_all.1 h
  have hnever : .never ∉ terms := fun hmem => (hterms _ hmem).ne_never rfl
  rw [conjoin_of_not_mem hnever]
  refine gather_of_alone htwo fun term hterm => ?_
  exact termsOfAll_of_ne (hterms term hterm).ne_always fun inner e => hnested inner (e ▸ hterm)

theorem disjoin_of_solid (h : (any terms).Solid) : disjoin terms = .any terms := by
  obtain ⟨⟨htwo, hnested⟩, hterms⟩ := solid_any.1 h
  have halways : .always ∉ terms := fun hmem => (hterms _ hmem).ne_always rfl
  rw [disjoin_of_not_mem halways]
  refine gather_of_alone htwo fun term hterm => ?_
  exact termsOfAny_of_ne (hterms term hterm).ne_never fun inner e => hnested inner (e ▸ hterm)

theorem negate_of_solid (h : p.not.Solid) : negate p = .not p := by
  obtain ⟨htidy, hp⟩ := solid_not.1 h
  cases p with
  | always => exact absurd rfl hp.ne_always
  | never => exact absurd rfl hp.ne_never
  | not inner => exact absurd rfl (htidy inner)
  | _ => rfl

theorem simplifyComparison_of_solid {q : Property R} {c : Comparison} (h : (compare q c).Solid) :
    simplifyComparison q c = .compare q c := by
  have htidy := solid_compare.1 h
  cases c with
  | oneOf ks =>
    match ks with
    | [] => cases htidy
    | [_] => exact absurd htidy (by simp [Tidy])
    | _ :: _ :: _ => rfl
  | _ k => rfl

theorem map_simplify_of_solid (h : ∀ term ∈ terms, term.simplify = term) :
    terms.map simplify = terms := by
  rw [List.map_congr_left h, List.map_id']

theorem simplify_of_solid : ∀ p : Predicate R, p.Solid → p.simplify = p
  | .always, _ => rfl
  | .never, _ => rfl
  | .compare _ _, h => simplifyComparison_of_solid h
  | .not term, h => by
    rw [simplify, simplify_of_solid term (solid_not.1 h).2, negate_of_solid h]
  | .all terms, h => by
    have each (term) (hterm : term ∈ terms) := simplify_of_solid term ((solid_all.1 h).2 term hterm)
    rw [simplify, simplifyList_eq, map_simplify_of_solid each, conjoin_of_solid h]
  | .any terms, h => by
    have each (term) (hterm : term ∈ terms) := simplify_of_solid term ((solid_any.1 h).2 term hterm)
    rw [simplify, simplifyList_eq, map_simplify_of_solid each, disjoin_of_solid h]

theorem IsNormal.simplify_eq (h : p.IsNormal) : p.simplify = p := by
  rcases isNormal_iff_settled.1 h with rfl | rfl | h
  · rfl
  · rfl
  · exact simplify_of_solid p h

/-- One pass of simplification brings a predicate into normal form and adds no nodes to it. What is
in normal form is left as it is, by a second pass for instance, and nothing else is. -/
theorem simplify_normalizes (p : Predicate R) :
    p.simplify.IsNormal ∧ p.simplify.nodes.length ≤ p.nodes.length ∧
      p.simplify.simplify = p.simplify ∧ (p.IsNormal ↔ p.simplify = p) := by
  have hnormal : p.simplify.IsNormal := isNormal_iff_settled.2 (settled_simplify p)
  refine ⟨hnormal, length_nodes_simplify p, hnormal.simplify_eq, ?_⟩
  constructor
  · intro h
    exact h.simplify_eq
  · intro h
    rw [← h]
    exact hnormal

/-- Negations that cancel each other leave a group, which the group above them opens in turn. -/
example (q r : Property R) (k : Key) :
    (all [compare q (.oneOf [k]), .not (.not (all [compare r (.gt k), .always])),
        any [.never, all [compare r (.lt k), compare q (.ne k)]]]).simplify =
      all [compare q (.eq k), compare r (.gt k), compare r (.lt k), compare q (.ne k)] := by
  rfl

end RecordStore.Predicate
