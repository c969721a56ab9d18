import Zabbix.Algo.HashsetRun

/-!
# Passes over a hashset with removals

A pass of an iterator from `zbx_hashset_iter_reset` to the end, where some of the entries are
removed through the iterator as they are met.  A removal puts the iterator back to the entry
before, or between two chains, so that what lies ahead of it (`Ahead`) stays what it was.
-/

open Chains

namespace Hashset

/-- The loop over `zbx_hashset_iter_next`: `chosen` decides, from the entries met so far and
the entry just met, whether it is removed.  The hashset at the end and the entries met. -/
def passLoop (chosen : List HashEntry → HashEntry → Bool) :
    ℕ → Hashset → HashIter → List HashEntry → Option (Hashset × List HashEntry)
  | 0, _, _, _ => none
  | rounds + 1, hs, iter, met => do
    let (iter, entry) ← iter.next hs
    match entry with
    | none => some (hs, met)
    | some entry =>
      if chosen met entry then
        let (hs, iter) ← iter.remove hs
        passLoop chosen rounds hs iter (met ++ [entry])
      else passLoop chosen rounds hs iter (met ++ [entry])

/-- A pass from `zbx_hashset_iter_reset` on, of at most `rounds` rounds. -/
def pass (chosen : List HashEntry → HashEntry → Bool) (rounds : ℕ) (hs : Hashset)
    (iter : HashIter) : Option (Hashset × List HashEntry) :=
  passLoop chosen rounds hs iter.reset []

/-- The entries that are chosen when the entries `ahead` are met after the entries `met`. -/
def chosenOf (chosen : List HashEntry → HashEntry → Bool) (met : List HashEntry) :
    List HashEntry → List HashEntry
  | [] => []
  | entry :: ahead =>
    if chosen met entry then entry :: chosenOf chosen (met ++ [entry]) ahead
    else chosenOf chosen (met ++ [entry]) ahead

variable {f : HashFunctions} {hs : Hashset} {iter : HashIter}

/-- The iterator stands on an entry of a slot, between two parts of the chain. -/
structure StandsAt (hs : Hashset) (iter : HashIter) (slot : ℕ) (before : List HashEntry)
    (entry : HashEntry) (after : List HashEntry) : Prop where
  slot_eq : iter.slot = slot
  entry_eq : iter.entry = some entry.address
  chain_eq : chain hs.slots slot = before ++ entry :: after

/-- The entries ahead of an iterator: those behind the entry it stands on and those of the
later slots. -/
inductive Ahead (hs : Hashset) (iter : HashIter) : List HashEntry → Prop where
  | between {slot : ℕ} (hslot : iter.slot = (slot : ℤ) - 1)
      (hentry : slot = 0 ∨ iter.entry = none) :
      Ahead hs iter (hs.slots.drop slot).flatten
  | standing {slot : ℕ} {before after : List HashEntry} {entry : HashEntry}
      (hstands : StandsAt hs iter slot before entry after) :
      Ahead hs iter (after ++ (hs.slots.drop (slot + 1)).flatten)

theorem flatten_drop {slots : List (List HashEntry)} {slot : ℕ} (h : slot < slots.length) :
  (slots.drop slot).flatten = chain slots slot ++ (slots.drop (slot + 1)).flatten
  := by
  rw [List.drop_eq_getElem_cons h, List.flatten_cons, chain_eq_getElem h]

/-- The search for the next chain that has an entry. -/
theorem find_chain (slots : List (List HashEntry)) (first : ℕ) :
  ((List.range' first (slots.length - first)).find?
        fun slot => !(chain slots slot).isEmpty) = none ∧ (slots.drop first).flatten = [] ∨
    ∃ slot entry after, ((List.range' first (slots.length - first)).find?
        fun slot => !(chain slots slot).isEmpty) = some slot ∧
      chain slots slot = entry :: after ∧
      (slots.drop first).flatten = entry :: (after ++ (slots.drop (slot + 1)).flatten)
  := by
  induction hn : slots.length - first generalizing first with
  | zero =>
    left
    rw [List.drop_eq_nil_of_le (by omega)]
    exact ⟨rfl, rfl⟩
  | succ n ih =>
    have hfirst : first < slots.length := by omega
    rw [List.range'_succ, List.find?_cons, flatten_drop hfirst]
    cases hchain : chain slots first with
    | nil => exact ih (first + 1) (by omega)
    | cons entry after =>
      right
      exact ⟨first, entry, after, rfl, hchain, rfl⟩

/-- Between two chains the iterator goes on to the first entry ahead. -/
theorem advance_ahead {slot : ℕ} (hslot : iter.slot = (slot : ℤ) - 1) :
  (hs.slots.drop slot).flatten = [] ∧ (iter.advance hs).2 = none ∨
    ∃ slot' entry after iter', iter.advance hs = (iter', some entry) ∧
      StandsAt hs iter' slot' [] entry after ∧
      (hs.slots.drop slot).flatten = entry :: (after ++ (hs.slots.drop (slot' + 1)).flatten)
  := by
  have hfirst : (iter.slot + 1).toNat = slot := by omega
  unfold HashIter.advance
  dsimp only
  rw [hfirst]
  obtain ⟨hnone, hempty⟩ | ⟨slot', entry, after, hsome, hchain, hflatten⟩ :=
    find_chain hs.slots slot
  · left
    rw [hnone]
    exact ⟨hempty, rfl⟩
  · right
    rw [hsome]
    dsimp only
    rw [hchain]
    exact ⟨slot', entry, after, _, rfl, ⟨rfl, rfl, hchain⟩, hflatten⟩

/-- The chain up to an entry and behind it, by its address. -/
theorem split_at_address {l before after : List HashEntry} {entry : HashEntry}
    (hl : l = before ++ entry :: after) (hnodup : (l.map HashEntry.address).Nodup) :
  l.takeWhile (·.address ≠ entry.address) = before ∧
    l.dropWhile (·.address ≠ entry.address) = entry :: after
  := by
  subst hl
  rw [List.map_append, List.nodup_append] at hnodup
  obtain ⟨-, -, hdisjoint⟩ := hnodup
  have hbefore : ∀ e ∈ before, decide (e.address ≠ entry.address) = true := by
    intro e he
    rw [decide_eq_true_eq]
    exact hdisjoint _ (List.mem_map_of_mem he) _ (by simp)
  rw [List.takeWhile_append_of_pos hbefore, List.dropWhile_append_of_pos hbefore]
  simp

theorem Sound.nodup_chain (h : Sound f hs) (slot : ℕ) :
  ((chain hs.slots slot).map HashEntry.address).Nodup
  := by
  by_cases hslot : slot < hs.slots.length
  · rw [chain_eq_getElem hslot]
    have hsub : hs.slots[slot].Sublist hs.entries :=
      List.sublist_flatten_of_mem (List.getElem_mem hslot)
    exact (hsub.map HashEntry.address).nodup h.addresses
  · rw [chain_of_ge (by omega)]
    exact List.nodup_nil

theorem StandsAt.stands {slot : ℕ} {before after : List HashEntry} {entry : HashEntry}
    (hstands : StandsAt hs iter slot before entry after) :
  Stands hs iter entry
  := by
  have htoNat : iter.slot.toNat = slot := by
    rw [hstands.slot_eq]
    exact Int.toNat_natCast slot
  refine ⟨?_, hstands.entry_eq, ?_⟩
  · rw [hstands.slot_eq]
    exact Int.natCast_nonneg slot
  · rw [htoNat, hstands.chain_eq]
    exact List.mem_append_right _ List.mem_cons_self

/-- One call of `zbx_hashset_iter_next`: it meets the first entry ahead, if there is one. -/
theorem next_ahead (h : Sound f hs) {ahead : List HashEntry} (hahead : Ahead hs iter ahead) :
  ahead = [] ∧ (∃ iter', iter.next hs = some (iter', none)) ∨
    ∃ entry rest iter' slot before after, ahead = entry :: rest ∧
      iter.next hs = some (iter', some entry) ∧ StandsAt hs iter' slot before entry after ∧
      rest = after ++ (hs.slots.drop (slot + 1)).flatten
  := by
  unfold HashIter.next
  cases hahead with
  | @between slot hslot hentry =>
    have hfinish : iter.slot ≠ HashIter.finish := by
      simp only [HashIter.finish]
      omega
    have hnone : (if iter.slot = HashIter.start then none else iter.entry) = none := by
      obtain rfl | hentry := hentry
      · exact if_pos hslot
      · rw [hentry, ite_self]
    rw [if_neg hfinish, hnone]
    obtain ⟨hempty, hresult⟩ | ⟨slot', entry, after, iter', hresult, hstands, hflatten⟩ :=
      advance_ahead hslot
    · exact .inl ⟨hempty, _, congrArg some (Prod.ext rfl hresult)⟩
    · exact .inr ⟨entry, _, iter', slot', [], after, hflatten, congrArg some hresult, hstands,
        rfl⟩
  | @standing slot before after entry hstands =>
    have hslot := hstands.slot_eq
    have hfinish : iter.slot ≠ HashIter.finish := by
      simp only [HashIter.finish]
      omega
    have hstart : iter.slot ≠ HashIter.start := by
      simp only [HashIter.start]
      omega
    have hbehind := behind_stands h hstands.stands
    have htoNat : iter.slot.toNat = slot := by omega
    rw [htoNat, (split_at_address hstands.chain_eq (h.nodup_chain slot)).2,
      List.tail_cons] at hbehind
    rw [if_neg hfinish, if_neg hstart, hstands.entry_eq]
    dsimp only
    rw [hbehind]
    cases after with
    | nil =>
      have hslot' : iter.slot = ((slot + 1 : ℕ) : ℤ) - 1 := by omega
      obtain ⟨hempty, hresult⟩ | ⟨slot', entry, after, iter', hresult, hstands, hflatten⟩ :=
        advance_ahead hslot'
      · exact .inl ⟨hempty, _, congrArg some (Prod.ext rfl hresult)⟩
      · exact .inr ⟨entry, _, iter', slot', [], after, hflatten, congrArg some hresult,
          hstands, rfl⟩
    | cons next after =>
      refine .inr ⟨next, _, _, slot, before ++ [entry], after, rfl, rfl, ⟨hslot, rfl, ?_⟩, rfl⟩
      rw [hstands.chain_eq, List.append_assoc]
      rfl

/-- One call of `zbx_hashset_iter_remove`: the entry is taken out of its chain, and what lies
ahead stays ahead. -/
theorem remove_ahead (h : Sound f hs) {slot : ℕ} {before after : List HashEntry}
    {entry : HashEntry} (hstands : StandsAt hs iter slot before entry after) :
  ∃ hs' iter', iter.remove hs = some (hs', iter') ∧
    hs' = ⟨hs.slots.set slot (before ++ after), hs.numData - 1⟩ ∧
    Ahead hs' iter' (after ++ (hs.slots.drop (slot + 1)).flatten)
  := by
  have hslot := hstands.slot_eq
  have hvalid : ¬ (iter.slot = HashIter.start ∨ iter.slot = HashIter.finish) := by
    simp only [HashIter.start, HashIter.finish]
    omega
  have hlength : slot < hs.slots.length := by
    by_contra hge
    have hchain := hstands.chain_eq
    rw [chain_of_ge (by omega)] at hchain
    simp at hchain
  have htoNat : iter.slot.toNat = slot := by omega
  obtain ⟨htake, hdrop⟩ := split_at_address hstands.chain_eq (h.nodup_chain slot)
  have hlater : (hs.slots.set slot (before ++ after)).drop (slot + 1) =
      hs.slots.drop (slot + 1) := by
    rw [List.drop_set_of_lt (Nat.lt_succ_self slot)]
  unfold HashIter.remove
  rw [if_neg hvalid, hstands.entry_eq, htoNat]
  dsimp only
  rw [hdrop, htake]
  dsimp only
  cases before using List.reverseRecOn with
  | nil =>
    refine ⟨_, _, rfl, rfl, ?_⟩
    have hbetween : Ahead ⟨hs.slots.set slot after, hs.numData - 1⟩
        { slot := iter.slot - 1, entry := none }
        ((hs.slots.set slot after).drop slot).flatten :=
      .between (congrArg (· - 1) hslot) (.inr rfl)
    rw [flatten_drop (by rwa [List.length_set]), chain_set_self hlength] at hbetween
    rw [List.nil_append] at hlater
    rwa [hlater] at hbetween
  | append_singleton pre prev =>
    rw [List.getLast?_concat]
    refine ⟨_, _, rfl, rfl, ?_⟩
    rw [← hlater]
    refine @Ahead.standing _ _ _ pre _ prev ⟨hslot, rfl, ?_⟩
    rw [chain_set_self hlength, List.append_assoc]
    rfl

/-- The loop meets exactly what lies ahead, in this order, and removes what is chosen. -/
theorem passLoop_spec (hkeyed : f.Keyed) (chosen : List HashEntry → HashEntry → Bool)
    {rounds : ℕ} {ahead met : List HashEntry} (h : Sound f hs) (hahead : Ahead hs iter ahead)
    (hrounds : ahead.length < rounds) :
  ∃ hs', passLoop chosen rounds hs iter met = some (hs', met ++ ahead) ∧ Sound f hs' ∧
    (hs'.entries ++ chosenOf chosen met ahead).Perm hs.entries
  := by
  induction rounds generalizing hs iter ahead met with
  | zero => exact absurd hrounds (Nat.not_lt_zero _)
  | succ rounds ih =>
    rw [passLoop]
    obtain ⟨rfl, iter', hnext⟩ | ⟨entry, rest, iter', slot, before, after, rfl, hnext, hstands,
      rfl⟩ := next_ahead h hahead
    · rw [hnext, List.append_nil]
      refine ⟨hs, rfl, h, ?_⟩
      rw [chosenOf, List.append_nil]
    · rw [List.length_cons, Nat.succ_lt_succ_iff] at hrounds
      rw [hnext, chosenOf]
      simp only [Option.bind_eq_bind, Option.bind_some]
      by_cases hchosen : chosen met entry = true
      · rw [if_pos hchosen, if_pos hchosen]
        obtain ⟨hs', iter'', hremove, rfl, hahead'⟩ := remove_ahead h hstands
        obtain ⟨hsound, hperm⟩ := h.unlink hkeyed hstands.chain_eq
        obtain ⟨hs'', hloop, hsound', hperm'⟩ := ih hsound hahead' hrounds
        rw [hremove]
        refine ⟨hs'', ?_, hsound', ?_⟩
        · rw [List.append_assoc] at hloop
          exact hloop
        · exact List.perm_middle.trans ((hperm'.cons entry).trans hperm)
      · rw [if_neg hchosen, if_neg hchosen]
        obtain ⟨hs'', hloop, hsound', hperm'⟩ :=
          ih h (.standing hstands) hrounds
        refine ⟨hs'', ?_, hsound', hperm'⟩
        rw [List.append_assoc] at hloop
        exact hloop

/-- A pass meets every entry that was there at the reset exactly once, removes exactly the
chosen ones and keeps the counter and the chains right. -/
theorem pass_exact (hkeyed : f.Keyed) (h : Sound f hs) (iter : HashIter)
    (chosen : List HashEntry → HashEntry → Bool) {rounds : ℕ}
    (hrounds : hs.entries.length < rounds) :
  ∃ hs' met, pass chosen rounds hs iter = some (hs', met) ∧ met.Perm hs.entries ∧ met.Nodup ∧
    (hs'.entries ++ chosenOf chosen [] met).Perm hs.entries ∧ Sound f hs'
  := by
  have hahead : Ahead hs iter.reset hs.entries := @Ahead.between _ _ 0 rfl (.inl rfl)
  obtain ⟨hs', hloop, hsound, hperm⟩ :=
    passLoop_spec hkeyed chosen h hahead hrounds
  exact ⟨hs', hs.entries, hloop, List.Perm.refl _, List.Nodup.of_map _ h.addresses, hperm,
    hsound⟩

/-- Three entries, of which the second inserted is removed in a pass. -/
theorem sampleCalls_pass :
  ∃ s, execute (step poolFunctions) ⟨create 1, sampleIters⟩ (sampleCalls.take 5) = some s ∧
    s.hs.numData = 3 ∧
    ∃ hs' met, pass (fun _ entry => entry.address = 32) 4 s.hs (s.iters 0) = some (hs', met) ∧
      met.Perm s.hs.entries ∧ met.Nodup ∧
      (hs'.entries ++ chosenOf (fun _ entry => entry.address = 32) [] met).Perm s.hs.entries ∧
      Sound poolFunctions hs'
  := by
  obtain ⟨s, hs⟩ : ∃ s,
      execute (step poolFunctions) ⟨create 1, sampleIters⟩ (sampleCalls.take 5) = some s :=
    Option.isSome_iff_exists.mp (by decide)
  have hsound : Sound poolFunctions s.hs := run_represents poolFunctions_keyed
    (fun c hc => sampleCalls_respect c (List.mem_of_mem_take hc))
    (Run.of_execute hs (by decide))
  have hcount : s.hs.numData = 3 := by
    have heval : (execute (step poolFunctions) ⟨create 1, sampleIters⟩
        (sampleCalls.take 5)).map (fun s => s.hs.numData) = some 3 := by decide
    rw [hs] at heval
    exact Option.some.inj heval
  refine ⟨s, hs, hcount, pass_exact poolFunctions_keyed hsound _ _ ?_⟩
  rw [← hsound.counted, hcount]
  exact Nat.lt_succ_self 3

end Hashset
