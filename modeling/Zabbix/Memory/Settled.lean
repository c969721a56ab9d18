import Mathlib.Data.List.Chain
import Zabbix.Memory.Freeing

/-!
# Segments between operations

Between operations no chunk is loose and no two neighbouring chunks are free. What an
operation means to those who hold blocks is which chunks in use it replaces by which
others, and that the data of all other chunks in use are as they were.
-/

namespace Memory

/-- No two neighbours are both free. -/
def NoFreePair (chunks : List Chunk) : Prop :=
  chunks.IsChain fun c n => c.kind = .free → n.kind ≠ .free

theorem noFreePair_at {before after : List Chunk} {c : Chunk} :
  NoFreePair (before ++ c :: after) ↔ NoFreePair before ∧ NoFreePair after ∧
    (∀ p ∈ before.getLast?, p.kind = .free → c.kind ≠ .free) ∧
    (c.kind = .free → ∀ n ∈ after.head?, n.kind ≠ .free)
  := by
  unfold NoFreePair
  rw [List.isChain_append, List.isChain_cons]
  simp only [List.head?_cons, Option.mem_some_iff, forall_eq']
  constructor
  · rintro ⟨hbefore, ⟨hnext, hafter⟩, hprev⟩
    exact ⟨hbefore, hafter, hprev, fun hc n hn => hnext n hn hc⟩
  · rintro ⟨hbefore, hafter, hprev, hnext⟩
    exact ⟨hbefore, ⟨fun n hn hc => hnext hc n hn, hafter⟩, hprev⟩

/-- A chunk in use has any neighbours. -/
theorem noFreePair_used {before after : List Chunk} {c : Chunk} (hc : c.kind ≠ .free) :
  NoFreePair (before ++ c :: after) ↔ NoFreePair before ∧ NoFreePair after
  := by
  rw [noFreePair_at]
  constructor
  · rintro ⟨hbefore, hafter, -⟩
    exact ⟨hbefore, hafter⟩
  · rintro ⟨hbefore, hafter⟩
    exact ⟨hbefore, hafter, fun _ _ _ => hc, fun hfree => absurd hfree hc⟩

/-- A free chunk has no free neighbours. -/
theorem noFreePair_free (before : List Chunk) {after : List Chunk} {c : Chunk} (hc : c.kind = .free) :
  NoFreePair (before ++ c :: after) ↔ NoFreePair before ∧ NoFreePair after ∧
    (∀ p ∈ before.getLast?, p.kind ≠ .free) ∧ ∀ n ∈ after.head?, n.kind ≠ .free
  := by
  rw [noFreePair_at]
  constructor
  · rintro ⟨hbefore, hafter, hprev, hnext⟩
    exact ⟨hbefore, hafter, fun p hp hfree => hprev p hp hfree hc, hnext hc⟩
  · rintro ⟨hbefore, hafter, hprev, hnext⟩
    exact ⟨hbefore, hafter, fun p hp hfree => absurd hfree (hprev p hp), fun _ => hnext⟩

/-- The chunk in use after `size` bytes of a chunk are taken. -/
def carved (size : ℕ) (c : Chunk) : Chunk :=
  ⟨c.addr, if c.size < size + 40 then c.size else size, .used⟩

theorem le_carved_size {size : ℕ} {c : Chunk} (hfit : size ≤ c.size) :
  size ≤ (carved size c).size
  := by
  unfold carved
  dsimp only
  split_ifs <;> omega

/-- The chunk in use comes first, what follows it is free. -/
theorem carve_eq (size : ℕ) (c : Chunk) :
  ∃ rest, carve size c = carved size c :: rest ∧ rest.length ≤ 1 ∧ ∀ d ∈ rest, d.kind = .free
  := by
  unfold carve carved
  split_ifs
  · exact ⟨[], rfl, by simp, by simp⟩
  · exact ⟨_, rfl, by simp, by simp⟩

theorem noFreePair_carve {before after : List Chunk} (size : ℕ) (c : Chunk)
    (hbefore : NoFreePair before) (hafter : NoFreePair after)
    (hnext : ∀ n ∈ after.head?, n.kind ≠ .free) :
  NoFreePair (before ++ (carve size c ++ after))
  := by
  obtain ⟨rest, heq, hlength, hrest⟩ := carve_eq size c
  rw [heq, List.cons_append, noFreePair_used (by simp [carved])]
  refine ⟨hbefore, ?_⟩
  match rest, hlength with
  | [], _ => exact hafter
  | [f], _ =>
    apply (noFreePair_free [] (hrest f (by simp))).mpr
    exact ⟨List.isChain_nil, hafter, by simp, hnext⟩

theorem Freed.noFreePair {before after chunks : List Chunk} {c : Chunk}
    (h : Freed before c after chunks) (hused : c.kind = .used)
    (hchain : NoFreePair (before ++ c :: after)) :
  NoFreePair chunks
  := by
  obtain ⟨hbefore, hafter⟩ := (noFreePair_used (by simp [hused])).mp hchain
  cases h with
  | both hp hn =>
    obtain ⟨hbefore, -, hprev, -⟩ := (noFreePair_free _ hp).mp hbefore
    obtain ⟨-, hafter, -, hnext⟩ := (noFreePair_free [] hn).mp hafter
    exact (noFreePair_free _ rfl).mpr ⟨hbefore, hafter, hprev, hnext⟩
  | prev hp hnext =>
    obtain ⟨hbefore, -, hprev, -⟩ := (noFreePair_free _ hp).mp hbefore
    exact (noFreePair_free _ rfl).mpr ⟨hbefore, hafter, hprev, hnext⟩
  | next hprev hn =>
    obtain ⟨-, hafter, -, hnext⟩ := (noFreePair_free [] hn).mp hafter
    exact (noFreePair_free _ rfl).mpr ⟨hbefore, hafter, hprev, hnext⟩
  | alone hprev hnext => exact (noFreePair_free _ rfl).mpr ⟨hbefore, hafter, hprev, hnext⟩

theorem Freed.mem {before after chunks : List Chunk} {c d : Chunk}
    (h : Freed before c after chunks) (hd : d ∈ chunks) :
  d.kind = .free ∨ d ∈ before ++ after
  := by
  cases h <;>
  · simp only [List.mem_append, List.mem_cons] at hd ⊢
    obtain hd | rfl | hd := hd
    · tauto
    · exact Or.inl rfl
    · tauto

/-- The chunks in use after a chunk is freed are those that there were. -/
theorem Freed.mem_iff {before after chunks : List Chunk} {c d : Chunk}
    (h : Freed before c after chunks) (hd : d.kind = .used) :
  d ∈ chunks ↔ d ∈ before ++ after
  := by
  have hne : ∀ {e : Chunk}, e.kind = .free → d ≠ e := by
    rintro e he rfl
    rw [hd] at he
    contradiction
  constructor
  · intro hmem
    exact (h.mem hmem).resolve_left (by simp [hd])
  · cases h with
    | both hp hn => simp [hne hp, hne hn]; tauto
    | prev hp _ => simp [hne hp]; tauto
    | next _ hn => simp [hne hn]; tauto
    | alone _ _ => simp; tauto

/-- The layout of a segment between operations. -/
structure Settled (info : Info) (chunks : List Chunk) (lists : ℕ → List ℕ) : Prop
    extends Layout info chunks lists where
  not_loose : ∀ c ∈ chunks, c.kind ≠ .loose
  no_free_pair : NoFreePair chunks

/-- The chunks `gone` in use are replaced by the chunks `new`. -/
structure Replaces (info : Info) (chunks : List Chunk) (info' : Info) (chunks' : List Chunk)
    (gone new : List Chunk) : Prop where
  mem_iff : ∀ d, d.kind = .used → (d ∈ chunks' ↔ d ∈ new ∨ d ∈ chunks ∧ d ∉ gone)
  kept : ∀ d ∈ chunks, d.kind = .used → d ∉ gone → Kept info.mem info'.mem d

namespace Replaces

variable {info info' info'' : Info} {chunks chunks' chunks'' gone new : List Chunk}

theorem refl (info : Info) (chunks : List Chunk) :
  Replaces info chunks info chunks [] []
  := ⟨by simp, fun _ _ _ _ _ _ _ => rfl⟩

/-- A chunk is taken into use and then another one is given back. -/
theorem takeThenGive {c new : Chunk} (h : Replaces info chunks info' chunks' [] [new])
    (h' : Replaces info' chunks' info'' chunks'' [c] []) (hne : new ≠ c) :
  Replaces info chunks info'' chunks'' [c] [new]
  := by
  constructor
  · intro d hd
    rw [h'.mem_iff d hd, h.mem_iff d hd]
    simp only [List.not_mem_nil, not_false_eq_true, and_true, false_or, List.mem_singleton]
    constructor
    · rintro ⟨rfl | hmem, hdc⟩
      · exact Or.inl rfl
      · exact Or.inr ⟨hmem, hdc⟩
    · rintro (rfl | ⟨hmem, hdc⟩)
      · exact ⟨Or.inl rfl, hne⟩
      · exact ⟨Or.inr hmem, hdc⟩
  · intro d hd hused hgone
    apply (h.kept d hd hused (by simp)).trans
    exact h'.kept d ((h.mem_iff d hused).mpr (Or.inr ⟨hd, by simp⟩)) hused hgone

/-- A chunk is given back and then one is taken into use. -/
theorem giveThenTake {c new : Chunk} (h : Replaces info chunks info' chunks' [c] [])
    (h' : Replaces info' chunks' info'' chunks'' [] [new]) :
  Replaces info chunks info'' chunks'' [c] [new]
  := by
  constructor
  · intro d hd
    rw [h'.mem_iff d hd, h.mem_iff d hd]
    simp
  · intro d hd hused hgone
    apply (h.kept d hd hused hgone).trans
    exact h'.kept d ((h.mem_iff d hused).mpr (Or.inr ⟨hd, hgone⟩)) hused (by simp)

end Replaces

namespace Settled

variable {info : Info} {chunks before after : List Chunk} {lists : ℕ → List ℕ} {c : Chunk}

/-- `__mem_malloc` takes one chunk into use, or changes nothing. -/
theorem memMalloc (h : Settled info chunks lists) (size : ℕ) :
  info.memMalloc size = (none, info) ∨
  ∃ new chunks' lists', (info.memMalloc size).1 = some new.addr ∧ new.kind = .used ∧
    memProperAllocSize size ≤ new.size ∧ Settled (info.memMalloc size).2 chunks' lists' ∧
    Replaces info chunks (info.memMalloc size).2 chunks' [] [new] ∧ new ∉ chunks ∧
    (Accounted info chunks → Accounted (info.memMalloc size).2 chunks')
  := by
  obtain hnone | ⟨before, c, after, lists', rfl, hfree, hfit, hresult, hlayout, hkept,
    haccounted⟩ := h.toLayout.memMalloc size
  · exact Or.inl hnone
  right
  generalize memProperAllocSize size = proper at *
  obtain ⟨rest, hcarve, -, hrest⟩ := carve_eq proper c
  have hothers : ∀ d ∈ before ++ after, d.kind ≠ .loose := (forall_at.mp h.not_loose).2
  refine ⟨carved proper c, _, lists', hresult, rfl, le_carved_size hfit,
    ⟨hlayout, ?_, ?_⟩, ⟨?_, ?_⟩, ?_, haccounted⟩
  · obtain ⟨hbefore, hafter⟩ := List.forall_mem_append.mp hothers
    rw [hcarve]
    simp only [List.forall_mem_append, List.forall_mem_cons]
    exact ⟨hbefore, ⟨by simp [carved], fun d hd => by simp [hrest d hd]⟩, hafter⟩
  · obtain ⟨hbefore, hafter, -, hnext⟩ := (noFreePair_free _ hfree).mp h.no_free_pair
    exact noFreePair_carve proper c hbefore hafter hnext
  · intro d hd
    have hdc : d ≠ c := by
      rintro rfl
      rw [hd] at hfree
      contradiction
    have hdr : d ∉ rest := by
      intro hmem
      rw [hrest d hmem] at hd
      contradiction
    rw [hcarve]
    simp [hdc, hdr]
    tauto
  · intro d hd hused _
    exact hkept d (Layout.mem_of_not_free hd hfree (by simp [hused])) (by simp [hused])
  · intro hmem
    have heq := h.tiles.eq_of_addr_eq (by omega) hmem (by simp : c ∈ before ++ c :: after) rfl
    rw [← heq] at hfree
    contradiction

/-- `__mem_free` of a chunk in use gives it back. -/
theorem memFree (h : Settled info chunks lists) (hc : c ∈ chunks) (hused : c.kind = .used) :
  ∃ chunks' lists', Settled (info.memFree (c.addr + 8)) chunks' lists' ∧
    Replaces info chunks (info.memFree (c.addr + 8)) chunks' [c] [] ∧
    (Accounted info chunks → Accounted (info.memFree (c.addr + 8)) chunks')
  := by
  obtain ⟨before, after, rfl⟩ := List.append_of_mem hc
  have hothers : ∀ d ∈ before ++ after, d.kind ≠ .loose := (forall_at.mp h.not_loose).2
  obtain ⟨chunks', lists', hfreed, hlayout, hkept, haccounted⟩ := h.toLayout.memFree hused hothers
  have hmem : ∀ d, d ∈ before ++ after ↔ d ∈ before ++ c :: after ∧ d ∉ [c] := by
    intro d
    rw [List.mem_singleton, h.mem_others_iff, and_congr_right_iff]
    intro hd
    refine not_congr ⟨?_, fun heq => heq ▸ rfl⟩
    exact h.tiles.eq_of_addr_eq (by omega) hd hc
  refine ⟨chunks', lists', ⟨hlayout, ?_, hfreed.noFreePair hused h.no_free_pair⟩,
    ⟨?_, ?_⟩, haccounted⟩
  · intro d hd
    obtain hfree | hd := hfreed.mem hd
    · simp [hfree]
    · exact hothers d hd
  · intro d hd
    rw [hfreed.mem_iff hd, hmem]
    simp
  · intro d hd hkind hgone
    exact hkept d ((hmem d).mpr ⟨hd, hgone⟩) (by simp [hkind])

end Settled

end Memory
