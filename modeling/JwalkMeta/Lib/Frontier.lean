import Mathlib.Data.List.Lex
import Mathlib.Data.List.Nodup
import Mathlib.Data.Nat.Basic

/-!
# Frontiers of a depth-first walk over tree addresses

A node of an ordered tree is addressed by the list of child positions that leads to it from the
root. Address `p` is an ancestor of `q` exactly when `p <+: q`, and the lexicographic order of
addresses is the preorder of the tree.

A walk that has emitted some nodes in preorder is described by its *frontier*: the subtrees it
still has to enter, from left to right. A list of addresses `O` that are still outstanding is
*covered* by a frontier `F` when every member of `F` is outstanding and every outstanding address
lies below a member of `F`. The head of a covering frontier is then the least outstanding address,
and emitting it replaces it by its children.

## Main definitions

* `Frontier.LeftOf`: two addresses that branch off, the first to the left of the second.
* `Frontier.children`: the addresses of the first `c` children of a node.
* `Frontier.ChildrenIn`: the outstanding addresses strictly below a node are those below its
  first `c` children, and these are outstanding.
* `Frontier.Covers`: a frontier covers the outstanding addresses.
* `Frontier.Explored`: a tree of which some nodes have been explored and some only discovered.

## Main results

* `Frontier.Covers.head_le`: the head of a covering frontier is the least outstanding address.
* `Frontier.Covers.advance`: the frontier after its head is emitted covers the rest.
* `Frontier.Covers.expand`, `Frontier.Explored.explore`: a discovered node gets its children.
-/

namespace Frontier

/-- An ancestor comes no later in preorder. -/
theorem prefix_le {p q : List ℕ} (h : p <+: q) : p ≤ q := not_lt.mp h.le

/-- The address `a` branches off to the left of the address `b`. -/
def LeftOf (a b : List ℕ) : Prop :=
  ∃ l i j a' b', a = l ++ i :: a' ∧ b = l ++ j :: b' ∧ i < j

theorem LeftOf.lt {a b : List ℕ} (h : LeftOf a b) : a < b := by
  obtain ⟨l, i, j, a', b', rfl, rfl, hij⟩ := h
  exact List.append_left_lt (List.Lex.rel hij)

/-- Branching to the left is inherited by everything below the two addresses. -/
theorem LeftOf.extend {a b a₂ b₂ : List ℕ} (h : LeftOf a b) (ha : a <+: a₂) (hb : b <+: b₂) :
    LeftOf a₂ b₂ := by
  obtain ⟨l, i, j, a', b', rfl, rfl, hij⟩ := h
  obtain ⟨s, rfl⟩ := ha
  obtain ⟨t, rfl⟩ := hb
  exact ⟨l, i, j, a' ++ s, b' ++ t, by simp, by simp, hij⟩

theorem LeftOf.not_prefix {a b q : List ℕ} (h : LeftOf a b) (hb : b <+: q) : ¬ a <+: q :=
  fun ha => absurd (h.extend ha hb).lt (lt_irrefl q)

theorem leftOf_append_singleton (p : List ℕ) {i j : ℕ} (hij : i < j) :
    LeftOf (p ++ [i]) (p ++ [j]) :=
  ⟨p, i, j, [], [], rfl, rfl, hij⟩

/-- The addresses of the first `c` children of `p`. -/
def children (p : List ℕ) (c : ℕ) : List (List ℕ) := (List.range c).map fun i => p ++ [i]

@[simp] theorem children_zero (p : List ℕ) : children p 0 = [] := rfl

theorem mem_children {p q : List ℕ} {c : ℕ} : q ∈ children p c ↔ ∃ i < c, q = p ++ [i] := by
  simp [children, eq_comm]

theorem append_singleton_inj {p q : List ℕ} {i j : ℕ} (h : p ++ [i] = q ++ [j]) :
    p = q ∧ i = j := by
  obtain ⟨h₁, h₂⟩ := List.append_inj' h rfl
  exact ⟨h₁, List.singleton_inj.mp h₂⟩

theorem children_nodup (p : List ℕ) (c : ℕ) : (children p c).Nodup :=
  (List.nodup_range).map fun _ _ h => (append_singleton_inj h).2

theorem children_pairwise_leftOf (p : List ℕ) (c : ℕ) : (children p c).Pairwise LeftOf :=
  List.pairwise_map.mpr (List.pairwise_lt_range.imp fun h => leftOf_append_singleton p h)

/-- An ancestor of a child of `p` is that child or an ancestor of `p`. -/
theorem prefix_append_singleton {p q : List ℕ} {i : ℕ} (h : q <+: p ++ [i]) :
    q = p ++ [i] ∨ q <+: p :=
  List.prefix_concat_iff.mp h

/-- The first `c` children of `p` are outstanding, and an outstanding address strictly below `p`
lies below one of them. -/
def ChildrenIn (O : List (List ℕ)) (p : List ℕ) (c : ℕ) : Prop :=
  (∀ i < c, p ++ [i] ∈ O) ∧ ∀ q ∈ O, p <+: q → q = p ∨ ∃ i < c, p ++ [i] <+: q

theorem ChildrenIn.perm {O O' : List (List ℕ)} {p : List ℕ} {c : ℕ} (h : ChildrenIn O p c)
    (hp : O.Perm O') : ChildrenIn O' p c :=
  ⟨fun i hi => hp.mem_iff.mp (h.1 i hi), fun q hq => h.2 q (hp.mem_iff.mpr hq)⟩

/-- Addresses that are not below `p` do not matter for its children. -/
theorem ChildrenIn.mono {O O' : List (List ℕ)} {p : List ℕ} {c : ℕ} (h : ChildrenIn O p c)
    (hsub : O ⊆ O') (hnew : ∀ q ∈ O', p <+: q → q ∈ O) : ChildrenIn O' p c :=
  ⟨fun i hi => hsub (h.1 i hi), fun q hq hpq => h.2 q (hnew q hq hpq) hpq⟩

/-- Removing an address that is not below `p` keeps the children of `p` outstanding. -/
theorem ChildrenIn.erase {O O' : List (List ℕ)} {f p : List ℕ} {c : ℕ}
    (h : ChildrenIn O p c) (hO : O.Perm (f :: O')) (hf : f ≤ p) : ChildrenIn O' p c := by
  refine ⟨fun i hi => ?_, fun q hq => h.2 q (hO.mem_iff.mpr (List.mem_cons_of_mem f hq))⟩
  have hmem := hO.mem_iff.mp (h.1 i hi)
  rcases List.mem_cons.mp hmem with he | hmem
  · have hlt : p < p ++ [i] := lt_of_le_of_ne (prefix_le (List.prefix_append p [i])) (by simp)
    exact absurd (he ▸ hlt) (not_lt_of_ge hf)
  · exact hmem

/-- Nothing of `O` lies strictly below `u`. -/
def Leaf (O : List (List ℕ)) (u : List ℕ) : Prop := ∀ q ∈ O, u <+: q → q = u

theorem Leaf.mono {O O' : List (List ℕ)} {u : List ℕ} (h : Leaf O u) (hsub : O' ⊆ O) :
    Leaf O' u :=
  fun q hq => h q (hsub hq)

/-- The new children of a leaf are its children. -/
theorem Leaf.childrenIn {O : List (List ℕ)} {u : List ℕ} (h : Leaf O u) (d : ℕ) :
    ChildrenIn (children u d ++ O) u d := by
  refine ⟨fun i hi => List.mem_append_left _ (mem_children.mpr ⟨i, hi, rfl⟩), fun q hq huq => ?_⟩
  rcases List.mem_append.mp hq with hq | hq
  · obtain ⟨i, hi, rfl⟩ := mem_children.mp hq
    exact Or.inr ⟨i, hi, List.prefix_refl _⟩
  · exact Or.inl (h q hq huq)

/-- The children of `p` when another node `u` gets children. -/
theorem ChildrenIn.expand {O : List (List ℕ)} {p u : List ℕ} {c : ℕ} (h : ChildrenIn O p c)
    (hu : u ∈ O) (hne : u ≠ p) (d : ℕ) : ChildrenIn (children u d ++ O) p c := by
  refine ⟨fun i hi => List.mem_append_right _ (h.1 i hi), fun q hq hpq => ?_⟩
  rcases List.mem_append.mp hq with hq | hq
  · obtain ⟨i, -, rfl⟩ := mem_children.mp hq
    rcases prefix_append_singleton hpq with rfl | hpu
    · exact Or.inl rfl
    · rcases h.2 u hu hpu with he | ⟨k, hk, hku⟩
      · exact absurd he hne
      · exact Or.inr ⟨k, hk, hku.trans (List.prefix_append u [i])⟩
  · exact h.2 q hq hpq

/-- A leaf stays one when another leaf gets children. -/
theorem Leaf.expand {O : List (List ℕ)} {u v : List ℕ} (h : Leaf O v) (hu : u ∈ O) (hne : u ≠ v)
    (d : ℕ) : Leaf (children u d ++ O) v := by
  intro q hq hvq
  rcases List.mem_append.mp hq with hq | hq
  · obtain ⟨i, -, rfl⟩ := mem_children.mp hq
    rcases prefix_append_singleton hvq with he | hvu
    · exact he.symm
    · exact absurd (h u hu hvu) hne
  · exact h q hq hvq

/-- The new children of a leaf are leaves. -/
theorem Leaf.child {O : List (List ℕ)} {u : List ℕ} (h : Leaf O u) (d i : ℕ) :
    Leaf (children u d ++ O) (u ++ [i]) := by
  intro q hq hiq
  rcases List.mem_append.mp hq with hq | hq
  · obtain ⟨k, -, rfl⟩ := mem_children.mp hq
    rcases prefix_append_singleton hiq with he | hlong
    · exact he.symm
    · have hlen := hlong.length_le
      rw [List.length_append, List.length_singleton] at hlen
      omega
  · have hqu := h q hq ((List.prefix_append u [i]).trans hiq)
    have hlen := hiq.length_le
    rw [hqu, List.length_append, List.length_singleton] at hlen
    omega

/-- The new children of a leaf are new. -/
theorem Leaf.nodup {O : List (List ℕ)} {u : List ℕ} (h : Leaf O u) (hO : O.Nodup) (d : ℕ) :
    (children u d ++ O).Nodup := by
  refine List.nodup_append'.mpr ⟨children_nodup u d, hO, fun q hq hqO => ?_⟩
  obtain ⟨i, -, rfl⟩ := mem_children.mp hq
  simpa using h _ hqO (List.prefix_append u [i])

/-- A tree that is being explored: `T` holds the explored nodes with their numbers of children,
`U` the nodes that have been discovered but not explored. -/
structure Explored (T : List (List ℕ × ℕ)) (U : List (List ℕ)) : Prop where
  /-- No address occurs twice. -/
  nodup : (T.map Prod.fst ++ U).Nodup
  /-- Nothing is known below a node that has not been explored. -/
  leaf : ∀ u ∈ U, Leaf (T.map Prod.fst ++ U) u
  /-- The children of an explored node are known. -/
  children : ∀ t ∈ T, ChildrenIn (T.map Prod.fst ++ U) t.1 t.2

namespace Explored

variable {T T' : List (List ℕ × ℕ)} {U U' : List (List ℕ)}

/-- A single node to start from. -/
theorem single (u : List ℕ) : Explored [] [u] := by
  refine ⟨List.nodup_singleton u, ?_, by simp⟩
  rintro v hv q hq -
  rw [List.mem_singleton.mp hv]
  exact List.mem_singleton.mp hq

theorem perm (h : Explored T U) (hT : T.Perm T') (hU : U.Perm U') : Explored T' U' := by
  have hA : (T.map Prod.fst ++ U).Perm (T'.map Prod.fst ++ U') := (hT.map _).append hU
  refine ⟨hA.nodup_iff.mp h.nodup, fun u hu => ?_, fun t ht => ?_⟩
  · exact (h.leaf u (hU.mem_iff.mpr hu)).mono hA.symm.subset
  · exact (h.children t (hT.mem_iff.mpr ht)).perm hA

/-- Exploring a discovered node. -/
theorem explore {u : List ℕ} (h : Explored T (u :: U)) (d : ℕ) :
    Explored ((u, d) :: T) (Frontier.children u d ++ U) := by
  have hA : (Frontier.children u d ++ (T.map Prod.fst ++ u :: U)).Perm
      (((u, d) :: T).map Prod.fst ++ (Frontier.children u d ++ U)) := by
    rw [List.map_cons, List.cons_append]
    refine (List.perm_middle.append_left _).trans (List.perm_middle.trans (List.Perm.cons u ?_))
    rw [← List.append_assoc, ← List.append_assoc]
    exact List.perm_append_comm.append_right U
  have hu : u ∈ T.map Prod.fst ++ u :: U := List.mem_append_right _ List.mem_cons_self
  have hleaf := h.leaf u List.mem_cons_self
  obtain ⟨-, hnd, hdisj⟩ := List.nodup_append'.mp h.nodup
  refine ⟨hA.nodup_iff.mp (hleaf.nodup h.nodup d), fun v hv => ?_, fun t ht => ?_⟩
  · refine Leaf.mono ?_ hA.symm.subset
    rcases List.mem_append.mp hv with hv | hv
    · obtain ⟨i, -, rfl⟩ := mem_children.mp hv
      exact hleaf.child d i
    · refine (h.leaf v (List.mem_cons_of_mem u hv)).expand hu ?_ d
      rintro rfl
      exact (List.nodup_cons.mp hnd).1 hv
  · refine ChildrenIn.perm ?_ hA
    rcases List.mem_cons.mp ht with rfl | ht
    · exact hleaf.childrenIn d
    · have ht' : t.1 ∈ T.map Prod.fst := List.mem_map_of_mem ht
      refine (h.children t ht).expand hu ?_ d
      intro he
      exact hdisj ht' (he ▸ List.mem_cons_self)

end Explored

/-- The frontier `F` covers the outstanding addresses `O`. -/
structure Covers (F O : List (List ℕ)) : Prop where
  /-- No address is outstanding twice. -/
  nodup : O.Nodup
  /-- Every subtree of the frontier is outstanding at its root. -/
  subset : ∀ f ∈ F, f ∈ O
  /-- Every outstanding address lies in a subtree of the frontier. -/
  below : ∀ q ∈ O, ∃ f ∈ F, f <+: q
  /-- The subtrees stand from left to right. -/
  leftOf : F.Pairwise LeftOf

namespace Covers

variable {F O O' : List (List ℕ)} {f : List ℕ}

theorem perm (h : Covers F O) (hp : O.Perm O') : Covers F O' :=
  ⟨hp.nodup_iff.mp h.nodup, fun f hf => hp.mem_iff.mp (h.subset f hf),
    fun q hq => h.below q (hp.mem_iff.mpr hq), h.leftOf⟩

/-- The head of a covering frontier is the least outstanding address. -/
theorem head_le (h : Covers (f :: F) O) {q : List ℕ} (hq : q ∈ O) : f ≤ q := by
  obtain ⟨g, hg, hgq⟩ := h.below q hq
  rcases List.mem_cons.mp hg with rfl | hg
  · exact prefix_le hgq
  · have hleft := (List.pairwise_cons.mp h.leftOf).1 g hg
    exact (hleft.extend (List.prefix_refl f) hgq).lt.le

theorem head_mem (h : Covers (f :: F) O) : f ∈ O := h.subset f List.mem_cons_self

/-- Only an empty frontier covers nothing. -/
theorem nil_iff (h : Covers F O) : F = [] ↔ O = [] := by
  constructor
  · rintro rfl
    refine List.eq_nil_iff_forall_not_mem.mpr fun q hq => ?_
    obtain ⟨g, hg, -⟩ := h.below q hq
    simp at hg
  · rintro rfl
    refine List.eq_nil_iff_forall_not_mem.mpr fun g hg => ?_
    simpa using h.subset g hg

/-- Emitting the head of the frontier puts its children in its place. -/
theorem advance {c : ℕ} (h : Covers (f :: F) O) (hO : O.Perm (f :: O'))
    (hc : ChildrenIn O f c) : Covers (children f c ++ F) O' := by
  have hnd : (f :: O').Nodup := hO.nodup_iff.mp h.nodup
  obtain ⟨hfO', hO'⟩ := List.nodup_cons.mp hnd
  obtain ⟨hhead, htail⟩ := List.pairwise_cons.mp h.leftOf
  have hmem {q : List ℕ} (hq : q ∈ O) (hne : q ≠ f) : q ∈ O' :=
    (List.mem_cons.mp (hO.mem_iff.mp hq)).resolve_left hne
  refine ⟨hO', fun g hg => ?_, fun q hq => ?_, ?_⟩
  · rcases List.mem_append.mp hg with hg | hg
    · obtain ⟨i, hi, rfl⟩ := mem_children.mp hg
      exact hmem (hc.1 i hi) (by simp)
    · have hlt : f < g := (hhead g hg).lt
      exact hmem (h.subset g (List.mem_cons_of_mem f hg)) hlt.ne'
  · have hqO : q ∈ O := hO.mem_iff.mpr (List.mem_cons_of_mem f hq)
    obtain ⟨g, hg, hgq⟩ := h.below q hqO
    rcases List.mem_cons.mp hg with rfl | hg
    · rcases hc.2 q hqO hgq with rfl | ⟨i, hi, hiq⟩
      · exact absurd hq hfO'
      · exact ⟨_, List.mem_append_left _ (mem_children.mpr ⟨i, hi, rfl⟩), hiq⟩
    · exact ⟨g, List.mem_append_right _ hg, hgq⟩
  · refine List.pairwise_append.mpr ⟨children_pairwise_leftOf f c, htail, fun a ha b hb => ?_⟩
    obtain ⟨i, -, rfl⟩ := mem_children.mp ha
    exact (hhead b hb).extend (List.prefix_append f [i]) (List.prefix_refl b)

/-- The new children of a leaf are covered as well. -/
theorem expand {u : List ℕ} (h : Covers F O) (hu : u ∈ O) (hleaf : Leaf O u) (d : ℕ) :
    Covers F (children u d ++ O) := by
  refine ⟨hleaf.nodup h.nodup d, fun g hg => List.mem_append_right _ (h.subset g hg),
    fun q hq => ?_, h.leftOf⟩
  rcases List.mem_append.mp hq with hq | hq
  · obtain ⟨i, -, rfl⟩ := mem_children.mp hq
    obtain ⟨g, hg, hgu⟩ := h.below u hu
    exact ⟨g, hg, hgu.trans (List.prefix_append u [i])⟩
  · exact h.below q hq

end Covers

end Frontier
