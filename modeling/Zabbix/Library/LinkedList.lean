import Mathlib.Algebra.GroupWithZero.Nat
import Mathlib.Logic.Function.Basic
import Mathlib.Data.List.Nodup

/-!
# Linked lists in memory

Doubly linked lists whose nodes are addresses of a memory of words. A node has the address
of the previous node in the word `prevAt` after it and that of the next one in the word
`nextAt` after it; `0` is no node.

A segment of a list is told apart by what lies on both sides of it, so that a list is
taken apart and put together at any place.
-/

namespace LinkedList

section Segment

variable (prevAt nextAt : ℕ) (mem : ℕ → ℕ)

/-- The nodes from `first` on, up to but not including `next`. The one before them is
`prev` and the last of them is `last`. -/
def Segment : (prev first : ℕ) → List ℕ → (last next : ℕ) → Prop
  | prev, first, [], last, next => last = prev ∧ first = next
  | prev, first, node :: nodes, last, next =>
    first = node ∧ node ≠ 0 ∧ mem (node + prevAt) = prev ∧
      Segment node (mem (node + nextAt)) nodes last next

/-- The whole list from `first` on. -/
def Linked (first : ℕ) (nodes : List ℕ) : Prop :=
  ∃ last, Segment prevAt nextAt mem 0 first nodes last 0

end Segment

variable {prevAt nextAt : ℕ} {mem mem' : ℕ → ℕ} {prev first last next : ℕ}
  {nodes nodes' : List ℕ}

theorem segment_append :
  Segment prevAt nextAt mem prev first (nodes ++ nodes') last next ↔
    ∃ m n, Segment prevAt nextAt mem prev first nodes m n ∧
      Segment prevAt nextAt mem m n nodes' last next
  := by
  induction nodes generalizing prev first with
  | nil =>
    constructor
    · intro h
      exact ⟨prev, first, ⟨rfl, rfl⟩, h⟩
    · rintro ⟨m, n, ⟨rfl, rfl⟩, h⟩
      exact h
  | cons node nodes ih =>
    simp only [List.cons_append, Segment, ih]
    constructor
    · rintro ⟨hfirst, hne, hprev, m, n, h, h'⟩
      exact ⟨m, n, ⟨hfirst, hne, hprev, h⟩, h'⟩
    · rintro ⟨m, n, ⟨hfirst, hne, hprev, h⟩, h'⟩
      exact ⟨hfirst, hne, hprev, m, n, h, h'⟩

theorem Segment.ne_zero (h : Segment prevAt nextAt mem prev first nodes last next) :
  ∀ node ∈ nodes, node ≠ 0
  := by
  induction nodes generalizing prev first with
  | nil => simp
  | cons node nodes ih => exact List.forall_mem_cons.mpr ⟨h.2.1, ih h.2.2.2⟩

/-- A segment depends on the fields of its nodes only. -/
theorem Segment.congr (h : Segment prevAt nextAt mem prev first nodes last next)
    (hmem : ∀ node ∈ nodes, mem' (node + prevAt) = mem (node + prevAt) ∧
      mem' (node + nextAt) = mem (node + nextAt)) :
  Segment prevAt nextAt mem' prev first nodes last next
  := by
  induction nodes generalizing prev first with
  | nil => exact h
  | cons node nodes ih =>
    obtain ⟨hfirst, hne, hprev, h⟩ := h
    obtain ⟨hnode, hnodes⟩ := List.forall_mem_cons.mp hmem
    refine ⟨hfirst, hne, hnode.1.trans hprev, ?_⟩
    rw [hnode.2]
    exact ih h hnodes

theorem Linked.congr (h : Linked prevAt nextAt mem first nodes)
    (hmem : ∀ node ∈ nodes, mem' (node + prevAt) = mem (node + prevAt) ∧
      mem' (node + nextAt) = mem (node + nextAt)) :
  Linked prevAt nextAt mem' first nodes
  := by
  obtain ⟨last, h⟩ := h
  exact ⟨last, h.congr hmem⟩

/-- Another node comes before the first node of a segment. -/
theorem Segment.setPrev {prev' : ℕ} {node : ℕ}
    (h : Segment prevAt nextAt mem prev first (node :: nodes) last next)
    (hprev : mem' (node + prevAt) = prev')
    (hnext : mem' (node + nextAt) = mem (node + nextAt))
    (hmem : ∀ node ∈ nodes, mem' (node + prevAt) = mem (node + prevAt) ∧
      mem' (node + nextAt) = mem (node + nextAt)) :
  Segment prevAt nextAt mem' prev' first (node :: nodes) last next
  := by
  obtain ⟨hfirst, hne, -, h⟩ := h
  refine ⟨hfirst, hne, hprev, ?_⟩
  rw [hnext]
  exact h.congr hmem

/-- Another node comes after the last node of a segment. -/
theorem Segment.setNext {next' : ℕ} {node : ℕ}
    (h : Segment prevAt nextAt mem prev first (nodes ++ [node]) last next)
    (hprev : mem' (node + prevAt) = mem (node + prevAt))
    (hnext : mem' (node + nextAt) = next')
    (hmem : ∀ node ∈ nodes, mem' (node + prevAt) = mem (node + prevAt) ∧
      mem' (node + nextAt) = mem (node + nextAt)) :
  Segment prevAt nextAt mem' prev first (nodes ++ [node]) last next'
  := by
  obtain ⟨m, n, hnodes, hn, hne, hm, hlast, -⟩ := segment_append.mp h
  apply segment_append.mpr
  exact ⟨m, n, hnodes.congr hmem, hn, hne, hprev.trans hm, hlast, hnext⟩

/-- The fields of nodes do not overlap. -/
def Separate (prevAt nextAt : ℕ) (nodes : List ℕ) : Prop :=
  nodes.Nodup ∧ ∀ a ∈ nodes, ∀ b ∈ nodes, a + prevAt ≠ b + nextAt

/-! ### Linking -/

/-- Makes `node` the first of a list. -/
def link (prevAt nextAt : ℕ) (mem : ℕ → ℕ) (first node : ℕ) : ℕ → ℕ :=
  let mem := if first ≠ 0 then Function.update mem (first + prevAt) node else mem
  Function.update (Function.update mem (node + prevAt) 0) (node + nextAt) first

/-- Linking writes to the fields of the node and of the one that was first. -/
theorem link_of_ne {x node : ℕ} (hfirst : first ≠ 0 → x ≠ first + prevAt)
    (hprev : x ≠ node + prevAt) (hnext : x ≠ node + nextAt) :
  link prevAt nextAt mem first node x = mem x
  := by
  unfold link
  rw [Function.update_of_ne hnext, Function.update_of_ne hprev]
  split_ifs with h
  · exact Function.update_of_ne (hfirst h) ..
  · rfl

theorem Linked.link {node : ℕ} (h : Linked prevAt nextAt mem first nodes) (hnode : node ≠ 0)
    (hseparate : Separate prevAt nextAt (node :: nodes)) :
  Linked prevAt nextAt (link prevAt nextAt mem first node) node (node :: nodes)
  := by
  obtain ⟨hnodup, hfields⟩ := hseparate
  obtain ⟨hfresh, hnodup⟩ := List.nodup_cons.mp hnodup
  obtain ⟨last, h⟩ := h
  have hpn := hfields node List.mem_cons_self node List.mem_cons_self
  have hnext : LinkedList.link prevAt nextAt mem first node (node + nextAt) = first :=
    Function.update_self ..
  have hprev : LinkedList.link prevAt nextAt mem first node (node + prevAt) = 0 := by
    unfold LinkedList.link
    rw [Function.update_of_ne hpn, Function.update_self]
  -- the fields of the other nodes, but for the one that was first
  have hother : ∀ a ∈ nodes, LinkedList.link prevAt nextAt mem first node (a + nextAt)
        = mem (a + nextAt) ∧
      (a ≠ first → LinkedList.link prevAt nextAt mem first node (a + prevAt)
        = mem (a + prevAt)) := by
    intro a ha
    have hane : a ≠ node := fun heq => hfresh (heq ▸ ha)
    have hna := hfields node List.mem_cons_self a (List.mem_cons_of_mem _ ha)
    have han := hfields a (List.mem_cons_of_mem _ ha) node List.mem_cons_self
    constructor
    · apply link_of_ne
      · intro hfirst
        cases nodes with
        | nil => contradiction
        | cons b nodes =>
          obtain ⟨rfl, -⟩ := h
          exact (hfields first (by simp) a (List.mem_cons_of_mem _ ha)).symm
      · exact hna.symm
      · omega
    · intro hfirst
      apply link_of_ne
      · omega
      · omega
      · exact han
  cases nodes with
  | nil =>
    refine ⟨node, rfl, hnode, hprev, rfl, ?_⟩
    rw [hnext]
    exact h.2
  | cons a nodes =>
    refine ⟨last, rfl, hnode, hprev, ?_⟩
    rw [hnext]
    have ha := h.1
    have hane := h.2.1
    subst ha
    obtain ⟨hfirst, -⟩ := List.nodup_cons.mp hnodup
    apply h.setPrev
    · unfold LinkedList.link
      have han := hfields first (by simp) node List.mem_cons_self
      have hne : first ≠ node := fun heq => hfresh (heq ▸ List.mem_cons_self)
      rw [Function.update_of_ne han, Function.update_of_ne (by omega), if_pos hane,
        Function.update_self]
    · exact (hother first List.mem_cons_self).1
    · intro b hb
      have hbf : b ≠ first := fun heq => hfirst (heq ▸ hb)
      obtain ⟨hn, hp⟩ := hother b (List.mem_cons_of_mem _ hb)
      exact ⟨hp hbf, hn⟩

/-! ### Unlinking -/

/-- Takes `node` out of a list: the memory and the first node afterwards. -/
def unlink (prevAt nextAt : ℕ) (mem : ℕ → ℕ) (first node : ℕ) : (ℕ → ℕ) × ℕ :=
  let prev := mem (node + prevAt)
  let next := mem (node + nextAt)
  let mem := if prev ≠ 0 then Function.update mem (prev + nextAt) next else mem
  (if next ≠ 0 then Function.update mem (next + prevAt) prev else mem,
    if prev ≠ 0 then first else next)

/-- Unlinking writes to one field of each neighbour. -/
theorem unlink_of_ne {x node : ℕ}
    (hprev : mem (node + prevAt) ≠ 0 → x ≠ mem (node + prevAt) + nextAt)
    (hnext : mem (node + nextAt) ≠ 0 → x ≠ mem (node + nextAt) + prevAt) :
  (unlink prevAt nextAt mem first node).1 x = mem x
  := by
  unfold unlink
  dsimp only
  split_ifs with h h' h'
  · rw [Function.update_of_ne (hnext h), Function.update_of_ne (hprev h')]
  · rw [Function.update_of_ne (hnext h)]
  · rw [Function.update_of_ne (hprev h')]
  · rfl

/-- The last node of a segment that starts a list. -/
theorem Segment.last_eq (h : Segment prevAt nextAt mem 0 first nodes last next) :
  nodes = [] ∧ last = 0 ∧ first = next ∨ ∃ nodes', nodes = nodes' ++ [last] ∧ last ≠ 0
  := by
  obtain rfl | ⟨nodes', node, rfl⟩ := List.eq_nil_or_concat nodes
  · exact Or.inl ⟨rfl, h⟩
  · rw [List.concat_eq_append] at h ⊢
    obtain ⟨m, n, -, -, hne, -, rfl, -⟩ := segment_append.mp h
    exact Or.inr ⟨nodes', rfl, hne⟩

/-- The first node of a segment that ends a list. -/
theorem Segment.first_eq (h : Segment prevAt nextAt mem prev first nodes last 0) :
  nodes = [] ∧ last = prev ∧ first = 0 ∨ ∃ nodes', nodes = first :: nodes' ∧ first ≠ 0
  := by
  cases nodes with
  | nil => exact Or.inl ⟨rfl, h⟩
  | cons node nodes =>
    obtain ⟨rfl, hne, -⟩ := h
    exact Or.inr ⟨nodes, rfl, hne⟩

theorem Linked.first_mem (h : Linked prevAt nextAt mem first nodes) (hfirst : first ≠ 0) :
  first ∈ nodes
  := by
  obtain ⟨last, h⟩ := h
  obtain ⟨-, -, hzero⟩ | ⟨nodes, rfl, -⟩ := h.first_eq
  · exact absurd hzero hfirst
  · exact List.mem_cons_self

/-- The neighbours of a node are nodes of the list, where there are any. -/
theorem Linked.neighbours {node : ℕ}
    (h : Linked prevAt nextAt mem first (nodes ++ node :: nodes')) :
  (mem (node + prevAt) = 0 ∨ mem (node + prevAt) ∈ nodes) ∧
  (mem (node + nextAt) = 0 ∨ mem (node + nextAt) ∈ nodes')
  := by
  obtain ⟨last, h⟩ := h
  obtain ⟨m, n, hpre, -, -, hprev, hpost⟩ := segment_append.mp h
  constructor
  · rw [hprev]
    obtain ⟨-, hm, -⟩ | ⟨pre, rfl, -⟩ := hpre.last_eq
    · exact Or.inl hm
    · right
      simp
  · obtain ⟨-, -, hn⟩ | ⟨post, rfl, -⟩ := hpost.first_eq
    · exact Or.inl hn
    · right
      simp

theorem Linked.unlink {node : ℕ}
    (h : Linked prevAt nextAt mem first (nodes ++ node :: nodes'))
    (hseparate : Separate prevAt nextAt (nodes ++ node :: nodes')) :
  Linked prevAt nextAt (unlink prevAt nextAt mem first node).1
    (LinkedList.unlink prevAt nextAt mem first node).2 (nodes ++ nodes')
  := by
  obtain ⟨last, h⟩ := h
  obtain ⟨hnodup, hfields⟩ := hseparate
  obtain ⟨m, n, hpre, -, -, hprev, hpost⟩ := segment_append.mp h
  set next := mem (node + nextAt) with hnext
  obtain ⟨hpreNodup, hpostNodup, hapart⟩ := List.nodup_append.mp hnodup
  have hm : m ≠ 0 → m ∈ nodes := by
    intro h0
    obtain ⟨-, hzero, -⟩ | ⟨pre, rfl, -⟩ := hpre.last_eq
    · exact absurd hzero h0
    · simp
  have hn : next ≠ 0 → next ∈ nodes' := by
    intro h0
    obtain ⟨-, -, hzero⟩ | ⟨post, rfl, -⟩ := hpost.first_eq
    · exact absurd hzero h0
    · simp
  -- all fields but one of each neighbour are as before
  have hsame : ∀ a ∈ nodes ++ node :: nodes',
      (a ≠ next → (LinkedList.unlink prevAt nextAt mem first node).1 (a + prevAt)
        = mem (a + prevAt)) ∧
      (a ≠ m → (LinkedList.unlink prevAt nextAt mem first node).1 (a + nextAt)
        = mem (a + nextAt)) := by
    intro a ha
    constructor
    · intro hne
      apply unlink_of_ne
      · rw [hprev]
        intro h0
        exact hfields a ha m (by simp [hm h0])
      · omega
    · intro hne
      apply unlink_of_ne
      · omega
      · intro h0
        exact (hfields next (by simp [hn h0]) a ha).symm
  have hbefore : Segment prevAt nextAt (LinkedList.unlink prevAt nextAt mem first node).1 0
      (LinkedList.unlink prevAt nextAt mem first node).2 nodes m next := by
    obtain ⟨rfl, hzero, -⟩ | ⟨pre, rfl, hne⟩ := hpre.last_eq
    · refine ⟨hzero, ?_⟩
      simp only [LinkedList.unlink, hprev, hzero, ne_eq, not_true_eq_false, if_false, ← hnext]
    · have hfirst : (LinkedList.unlink prevAt nextAt mem first node).2 = first := by
        simp only [LinkedList.unlink, hprev, if_pos hne]
      rw [hfirst]
      have hmn : ∀ a ∈ pre ++ [m], a ≠ next := by
        intro a ha heq
        have hnode := hn (heq ▸ hpre.ne_zero a ha)
        exact hapart a ha next (List.mem_cons_of_mem _ hnode) heq
      apply hpre.setNext
      · exact (hsame m (by simp)).1 (hmn m (by simp))
      · simp only [LinkedList.unlink, ← hnext, hprev, if_pos hne]
        split_ifs with h0
        · have hnm := hfields next (by simp [hn h0]) m (by simp)
          rw [Function.update_of_ne hnm.symm, Function.update_self]
        · exact Function.update_self ..
      · intro a ha
        have ham : a ≠ m := (List.nodup_append.mp hpreNodup).2.2 a ha m (by simp)
        obtain ⟨hp, hnx⟩ := hsame a (by simp [ha])
        exact ⟨hp (hmn a (by simp [ha])), hnx ham⟩
  have hafter : ∃ last', Segment prevAt nextAt
      (LinkedList.unlink prevAt nextAt mem first node).1 m next nodes' last' 0 := by
    obtain ⟨rfl, -, hzero⟩ | ⟨post, rfl, hne⟩ := hpost.first_eq
    · exact ⟨m, rfl, hzero⟩
    · have hnm : ∀ b ∈ next :: post, b ≠ m := by
        intro b hb heq
        have hnode := hm (heq ▸ hpost.ne_zero b hb)
        exact hapart m hnode b (List.mem_cons_of_mem _ hb) heq.symm
      refine ⟨last, hpost.setPrev ?_ ?_ ?_⟩
      · simp only [LinkedList.unlink, ← hnext, hprev, if_pos hne]
        split_ifs <;> exact Function.update_self ..
      · exact (hsame next (by simp)).2 (hnm next (by simp))
      · intro b hb
        have hbn : b ≠ next := by
          intro heq
          subst heq
          exact (List.nodup_cons.mp (List.nodup_cons.mp hpostNodup).2).1 hb
        obtain ⟨hp, hnx⟩ := hsame b (by simp [hb])
        exact ⟨hp hbn, hnx (hnm b (by simp [hb]))⟩
  obtain ⟨last', hafter⟩ := hafter
  exact ⟨last', segment_append.mpr ⟨m, next, hbefore, hafter⟩⟩

end LinkedList
