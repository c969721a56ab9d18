import Zabbix.Algo.HashsetSound
import Zabbix.Library.Run

/-!
# Hashsets as finite sets

A hashset holds a finite set of entries with different keys, and every call does to this
set what its name says, whatever growth and failed allocations occur.

An insertion with an offset leaves the first bytes of the entry to its caller, so the
functions must not depend on them (`Respects`). An iterator is used while it stands on an
entry, and the memory functions give addresses that are not in use (`Permitted`).
-/

open Chains

/-- Data that differ in the first `offset` bytes only compare equal. -/
def HashFunctions.Ignores (f : HashFunctions) (offset : ℕ) : Prop :=
  ∀ header header' rest : List UInt8, header.length = offset → header'.length = offset →
    f.compare (header ++ rest) (header' ++ rest) = 0

namespace Hashset

variable {f : HashFunctions} {s : State}

/-- The contract between an insertion and the functions of the hashset. -/
def Call.Respects (f : HashFunctions) : Call → Prop
  | .insertExt data offset _ => offset ≤ data.length ∧ f.Ignores offset
  | _ => True

/-- The iterator is at the start or the end, behind a slot, or stands on an entry. -/
def Usable (hs : Hashset) (iter : HashIter) : Prop :=
  iter.slot = HashIter.start ∨ iter.slot = HashIter.finish ∨
    0 ≤ iter.slot ∧ (iter.entry = none ∧ iter.slot < hs.slots.length ∨
      ∃ entry ∈ hs.entries, Stands hs iter entry)

/-- The call finds fresh memory and an iterator that may be used. -/
def Permitted (s : State) : Call → Prop
  | .insertExt _ _ alloc =>
    ∀ block ∈ alloc.malloc, ∀ entry ∈ s.hs.entries, entry.address ≠ block.1
  | .iterNext iter => Usable s.hs (s.iters iter)
  | .iterRemove iter => ∃ entry ∈ s.hs.entries, Stands s.hs (s.iters iter) entry
  | _ => True

instance (hs : Hashset) (iter : HashIter) (entry : HashEntry) :
    Decidable (Stands hs iter entry) :=
  inferInstanceAs (Decidable (_ ∧ _ ∧ _))

instance (hs : Hashset) (iter : HashIter) : Decidable (Usable hs iter) :=
  inferInstanceAs (Decidable (_ ∨ _ ∨ _ ∧ (_ ∧ _ ∨ _)))

instance (s : State) : ∀ c, Decidable (Permitted s c)
  | .insertExt _ _ alloc =>
    inferInstanceAs (Decidable (∀ block ∈ alloc.malloc, ∀ entry ∈ s.hs.entries, _))
  | .search _ | .remove _ | .clear | .iterReset _ => inferInstanceAs (Decidable True)
  | .iterNext iter => inferInstanceAs (Decidable (Usable s.hs (s.iters iter)))
  | .iterRemove _ => inferInstanceAs (Decidable (∃ entry ∈ s.hs.entries, _))

/-- The set a hashset holds. -/
def contents (s : State) : Set HashEntry := {entry | entry ∈ s.hs.entries}

/-- The load at which an insertion enlarges the slots. -/
def Critical (hs : Hashset) : Prop := hs.numData + 1 ≥ hs.slots.length * 4 / 5

/-- What a call does to the set and returns. An insertion of a new key returns nothing exactly
when the block for the entry or, at a critical load, the larger slots are not allocated, and its
entry stands in the block. -/
def Does (f : HashFunctions) (s : State) (c : Call) (s' : State)
    (result : Option HashEntry) : Prop :=
  match c with
  | .insertExt data offset alloc =>
    (∃ entry ∈ contents s, f.compare entry.data data = 0 ∧ result = some entry ∧
      contents s' = contents s) ∨
    (∀ entry ∈ contents s, f.compare entry.data data ≠ 0) ∧
      ((alloc.malloc = none ∨ Critical s.hs ∧ alloc.realloc = false) ∧ result = none ∧
          contents s' = contents s ∨
        (Critical s.hs → alloc.realloc = true) ∧
          ∃ entry ∉ contents s, (∃ found, alloc.malloc = some (entry.address, found)) ∧
            f.compare entry.data data = 0 ∧ entry.data.drop offset = data.drop offset ∧
            result = some entry ∧ contents s' = insert entry (contents s))
  | .search data =>
    contents s' = contents s ∧
      ∀ entry, result = some entry ↔ entry ∈ contents s ∧ f.compare entry.data data = 0
  | .remove data => contents s' = {entry ∈ contents s | f.compare entry.data data ≠ 0}
  | .clear => contents s' = ∅
  | .iterReset _ => contents s' = contents s
  | .iterNext iter =>
    contents s' = contents s ∧
      ∀ entry ∈ result, entry ∈ contents s ∧ Stands s'.hs (s'.iters iter) entry
  | .iterRemove iter =>
    ∃ entry ∈ contents s, Stands s.hs (s.iters iter) entry ∧
      contents s' = contents s \ {entry}

/-! ### The calls -/

theorem copied_equal {data : List UInt8} {offset : ℕ} (hle : offset ≤ data.length)
    (hignores : f.Ignores offset) (found : ℕ → UInt8) :
  f.compare (copied data offset found) data = 0
  := by
  have htake : data.take offset ++ data.drop offset = data := List.take_append_drop _ _
  have hequal := hignores ((List.range offset).map found) (data.take offset)
    (data.drop offset) (by simp) (by simpa using hle)
  rwa [htake] at hequal

theorem drop_copied (data : List UInt8) (offset : ℕ) (found : ℕ → UInt8) :
  (copied data offset found).drop offset = data.drop offset
  := by
  unfold copied
  rw [List.drop_left' (by simp)]

theorem grow_eq_none_iff {hs : Hashset} {realloc : Bool} :
  hs.grow realloc = none ↔ Critical hs ∧ realloc = false
  := by
  unfold grow Critical
  split_ifs <;> simp_all

theorem insertExt_does (h : Sound f s.hs) (hkeyed : f.Keyed) {data : List UInt8}
    {offset : ℕ} {alloc : HashAllocation} (hle : offset ≤ data.length)
    (hignores : f.Ignores offset)
    (hfresh : ∀ block ∈ alloc.malloc, ∀ entry ∈ s.hs.entries, entry.address ≠ block.1) :
  Sound f (s.hs.insertExt f data offset alloc).1 ∧
    Does f s (.insertExt data offset alloc)
      { s with hs := (s.hs.insertExt f data offset alloc).1 }
      (s.hs.insertExt f data offset alloc).2
  := by
  unfold insertExt
  cases hsearch : s.hs.search f data with
  | some entry =>
    obtain ⟨hmem, heq⟩ := (h.search_eq_some_iff hkeyed).mp hsearch
    exact ⟨h, .inl ⟨entry, hmem, heq, rfl, rfl⟩⟩
  | none =>
    have hnone := (h.search_eq_none_iff hkeyed).mp hsearch
    cases hgrow : s.hs.grow alloc.realloc with
    | none => exact ⟨h, .inr ⟨hnone, .inl ⟨.inr (grow_eq_none_iff.mp hgrow), rfl, rfl⟩⟩⟩
    | some hs =>
      obtain ⟨hsound, hperm⟩ := grow_spec h hkeyed hgrow
      have henlarged : Critical s.hs → alloc.realloc = true := by
        intro hcritical
        by_contra hrealloc
        rw [grow_eq_none_iff.mpr ⟨hcritical, by simpa using hrealloc⟩] at hgrow
        cases hgrow
      cases hmalloc : alloc.malloc with
      | none =>
        refine ⟨hsound, .inr ⟨hnone, .inl ⟨.inl hmalloc, rfl, ?_⟩⟩⟩
        ext entry
        exact hperm.mem_iff
      | some block =>
        obtain ⟨address, found⟩ := block
        have hequal := copied_equal hle hignores found
        have hhash := (hkeyed.hash_eq _ _ hequal).symm
        have hnew : ∀ e ∈ hs.entries, f.compare e.data (copied data offset found) ≠ 0 := by
          intro e he hsame
          exact hnone e (hperm.mem_iff.mp he) (hkeyed.trans _ _ _ hsame hequal)
        have haddress : ∀ e ∈ hs.entries, e.address ≠ address := by
          intro e he
          exact hfresh _ hmalloc e (hperm.mem_iff.mp he)
        refine ⟨hsound.link hkeyed hhash hnew haddress, .inr ⟨hnone, .inr ⟨henlarged, ?_⟩⟩⟩
        refine ⟨⟨address, f.hash data, copied data offset found⟩, ?_, ⟨found, hmalloc⟩, hequal,
          drop_copied data offset found, rfl, ?_⟩
        · intro hmem
          exact hnone _ hmem hequal
        · ext entry
          have hlink := (entries_link_perm hsound
            ⟨address, f.hash data, copied data offset found⟩).mem_iff (a := entry)
          have hold := hperm.mem_iff (a := entry)
          simp only [contents, Set.mem_ofPred_eq, Set.mem_insert_iff]
          rw [hlink, List.mem_cons, hold]

/-- The head of the chain the iterator goes on to. -/
theorem advance_stands {hs : Hashset} {iter : HashIter} {entry : HashEntry}
    (h : (iter.advance hs).2 = some entry) :
  Stands hs (iter.advance hs).1 entry
  := by
  unfold HashIter.advance at h ⊢
  dsimp only at h ⊢
  split
  · rename_i slot hslot
    rw [hslot] at h
    dsimp only at h
    refine ⟨by simp, ?_, ?_⟩
    · simp [h]
    · simpa using List.mem_of_head? h
  · rename_i hnone
    rw [hnone] at h
    cases h

/-- The entries behind an entry an iterator stands on are those of its chain. -/
theorem behind_stands {hs : Hashset} (h : Sound f hs) {iter : HashIter}
    {entry : HashEntry} (hstands : Stands hs iter entry) :
  HashIter.behind hs entry.address =
    some ((chain hs.slots iter.slot.toNat).dropWhile (·.address ≠ entry.address)).tail
  := by
  obtain ⟨-, -, hmem⟩ := hstands
  have hslot : iter.slot.toNat < hs.slots.length := by
    by_contra hge
    rw [chain_of_ge (by omega)] at hmem
    cases hmem
  unfold HashIter.behind
  cases hfind : hs.slots.find? fun chain => chain.any (·.address = entry.address) with
  | none =>
    have hall := List.find?_eq_none.mp hfind _ (List.getElem_mem hslot)
    rw [← chain_eq_getElem hslot] at hall
    exact absurd (List.any_eq_true.mpr ⟨entry, hmem, by simp⟩) hall
  | some c =>
    obtain ⟨j, hj, rfl⟩ := List.getElem_of_mem (List.mem_of_find?_eq_some hfind)
    have hany := List.find?_some hfind
    rw [← chain_eq_getElem hj] at hany ⊢
    obtain ⟨e, he, haddress⟩ := List.any_eq_true.mp hany
    have heq : e = entry := List.inj_on_of_nodup_map h.addresses
      (mem_entries_of_mem_chain he) (mem_entries_of_mem_chain hmem) (by simpa using haddress)
    have hjslot : j = iter.slot.toNat := by
      rw [← h.placed j e he, heq, h.placed _ entry hmem]
    rw [hjslot]
    rfl

/-- A usable iterator goes on, and where it returns an entry it stands on it. -/
theorem iterNext_does {hs : Hashset} (h : Sound f hs) {iter : HashIter}
    (husable : Usable hs iter) :
  ∃ iter' result, iter.next hs = some (iter', result) ∧
    ∀ entry ∈ result, Stands hs iter' entry
  := by
  unfold HashIter.next
  by_cases hfinish : iter.slot = HashIter.finish
  · exact ⟨iter, none, by rw [if_pos hfinish], by simp⟩
  rw [if_neg hfinish]
  by_cases hstart : iter.slot = HashIter.start
  · rw [if_pos hstart]
    exact ⟨_, _, rfl, fun entry => advance_stands⟩
  rw [if_neg hstart]
  obtain hstart' | hfinish' | ⟨hslot, ⟨hnone, -⟩ | ⟨entry, -, hstands⟩⟩ := husable
  · exact absurd hstart' hstart
  · exact absurd hfinish' hfinish
  · rw [hnone]
    exact ⟨_, _, rfl, fun entry => advance_stands⟩
  · rw [hstands.2.1]
    dsimp only
    rw [behind_stands h hstands]
    split
    · rename_i heq
      cases heq
    · exact ⟨_, _, rfl, fun entry => advance_stands⟩
    · rename_i next rest heq
      refine ⟨_, _, rfl, ?_⟩
      intro e he
      obtain rfl := Option.some.inj he
      refine ⟨hslot, rfl, ?_⟩
      have htail : next ∈ ((chain hs.slots iter.slot.toNat).dropWhile
          (·.address ≠ entry.address)).tail := by
        rw [Option.some.inj heq]
        exact List.mem_cons_self
      exact (List.dropWhile_sublist _).mem (List.mem_of_mem_tail htail)

/-- Every permitted call returns, keeps the places of the entries right and does what it
should to the set. -/
theorem call_does (h : Sound f s.hs) (hkeyed : f.Keyed) {c : Call}
    (hrespects : c.Respects f) (hpermitted : Permitted s c) :
  ∃ s' result, call f s c = some (s', result) ∧ Sound f s'.hs ∧ Does f s c s' result
  := by
  cases c with
  | insertExt data offset alloc =>
    have hdoes := insertExt_does h hkeyed hrespects.1 hrespects.2 hpermitted
    exact ⟨_, _, rfl, hdoes⟩
  | search data =>
    exact ⟨_, _, rfl, h, rfl, fun entry => h.search_eq_some_iff hkeyed⟩
  | remove data =>
    obtain ⟨hsound, hmem⟩ := h.remove hkeyed data
    exact ⟨_, _, rfl, hsound, Set.ext hmem⟩
  | clear =>
    obtain ⟨hsound, hentries⟩ := h.clear
    refine ⟨_, _, rfl, hsound, ?_⟩
    simp [Does, contents, hentries]
  | iterReset iter => exact ⟨_, _, rfl, h, rfl⟩
  | iterNext iter =>
    obtain ⟨iter', result, hnext, hstands⟩ := iterNext_does h hpermitted
    have hcall : call f s (.iterNext iter) =
        some (⟨s.hs, Function.update s.iters iter iter'⟩, result) := by
      rw [call, hnext]
      rfl
    refine ⟨_, _, hcall, h, rfl, ?_⟩
    intro entry hentry
    have hentry' := hstands entry hentry
    refine ⟨mem_entries_of_mem_chain hentry'.2.2, ?_⟩
    simpa using hentry'
  | iterRemove iter =>
    obtain ⟨entry, hmem, hstands⟩ := hpermitted
    obtain ⟨⟨hs, iter'⟩, hremove⟩ := Option.isSome_iff_exists.mp (iterRemove_isSome hstands)
    obtain ⟨hsound, hentries⟩ := h.iterRemove hkeyed hremove
    have hcall : call f s (.iterRemove iter) =
        some (⟨hs, Function.update s.iters iter iter'⟩, none) := by
      rw [call, hremove]
      rfl
    refine ⟨_, _, hcall, hsound, entry, hmem, hstands, ?_⟩
    ext e
    have he := hentries e
    rw [hstands.2.1] at he
    constructor
    · intro hin
      obtain ⟨hold, hne⟩ := he.mp hin
      refine ⟨hold, ?_⟩
      rintro rfl
      exact hne rfl
    · rintro ⟨hold, hne⟩
      refine he.mpr ⟨hold, fun heq => hne ?_⟩
      exact (List.inj_on_of_nodup_map h.addresses hmem hold (Option.some.inj heq)).symm

/-- In every run the places of the entries are right. -/
theorem run_represents (hkeyed : f.Keyed) {initSize : ℕ} {iters : ℕ → HashIter}
    {calls : List Call} (hrespects : ∀ c ∈ calls, c.Respects f)
    (run : Run (StepOf (step f)) Permitted ⟨create initSize, iters⟩ calls s) :
  Sound f s.hs
  := by
  induction run with
  | nil => exact sound_create initSize
  | @snoc calls s s' c run hpermitted hstep ih =>
    have hsound := ih fun c hc => hrespects c (List.mem_append_left _ hc)
    obtain ⟨s'', result, hcall, hsound', -⟩ :=
      call_does hsound hkeyed (hrespects c (by simp)) hpermitted
    have heq : s'' = s' := by
      simpa [StepOf, step, hcall] using hstep
    rwa [heq] at hsound'

theorem Sound.finiteSet (h : Sound f s.hs) (hkeyed : f.Keyed) :
  (contents s).Finite ∧ s.hs.numData = (contents s).ncard ∧
    ∀ a ∈ contents s, ∀ b ∈ contents s, f.compare a.data b.data = 0 → a = b
  := by
  refine ⟨List.finite_toSet s.hs.entries, ?_, ?_⟩
  · rw [h.counted]
    exact (ncard_of_nodup (h.distinct.nodup fun e => hkeyed.refl e.data)).symm
  · intro a ha b hb hab
    exact h.distinct.eq_of_same (fun _ _ => hkeyed.symm _ _) ha hb hab

/-- A hashset behaves as a finite set keyed by the comparison: it starts empty, in every
state a run reaches its counter is the size of the set and no two of its entries have
equal keys, and every further call returns and does to the set what it should. -/
theorem run_finiteSet (hkeyed : f.Keyed) {initSize : ℕ} {iters : ℕ → HashIter}
    {calls : List Call} (hrespects : ∀ c ∈ calls, c.Respects f)
    (run : Run (StepOf (step f)) Permitted ⟨create initSize, iters⟩ calls s) :
  contents ⟨create initSize, iters⟩ = ∅ ∧
    ((contents s).Finite ∧ s.hs.numData = (contents s).ncard ∧
      ∀ a ∈ contents s, ∀ b ∈ contents s, f.compare a.data b.data = 0 → a = b) ∧
    ∀ c : Call, c.Respects f → Permitted s c →
      ∃ s' result, call f s c = some (s', result) ∧ Does f s c s' result
  := by
  have hsound := run_represents hkeyed hrespects run
  refine ⟨?_, hsound.finiteSet hkeyed, ?_⟩
  · simp [contents, entries, create]
  · intro c hc hpermitted
    obtain ⟨s', result, hcall, -, hdoes⟩ := call_does hsound hkeyed hc hpermitted
    exact ⟨s', result, hcall, hdoes⟩

/-! ### Records with a header

The string pools keep a reference counter before the text of a record and compare the
text only. -/

/-- The functions of a pool of records whose first four bytes are a counter. -/
def poolFunctions : HashFunctions where
  hash := fun data => (data.drop 4).foldl (fun hash byte => hash * 31 + byte.toUInt32) 0
  compare := fun a b => if a.drop 4 = b.drop 4 then 0 else 1

theorem compare_poolFunctions {a b : List UInt8} :
  poolFunctions.compare a b = 0 ↔ a.drop 4 = b.drop 4
  := by
  simp [poolFunctions]

theorem poolFunctions_keyed :
  poolFunctions.Keyed
  where
  refl := fun _ => compare_poolFunctions.mpr rfl
  symm := fun _ _ h => compare_poolFunctions.mpr (compare_poolFunctions.mp h).symm
  trans := fun _ _ _ hab hbc => compare_poolFunctions.mpr
    ((compare_poolFunctions.mp hab).trans (compare_poolFunctions.mp hbc))
  hash_eq := by
    intro a b h
    simp [poolFunctions, compare_poolFunctions.mp h]

theorem poolFunctions_ignores :
  poolFunctions.Ignores 4
  := by
  intro header header' rest h h'
  rw [compare_poolFunctions, List.drop_left' h, List.drop_left' h']

/-- Iterators over uninitialised memory. -/
def sampleIters : ℕ → HashIter := fun _ => ⟨7, none⟩

/-- Insertions that enlarge the slots twice, one that finds no memory, a search, and
removals by data and through an iterator. -/
def sampleCalls : List Call :=
  [ .insertExt [9, 9, 9, 9, 1] 4 ⟨true, some (16, fun _ => 7)⟩,
    .insertExt [9, 9, 9, 9, 2] 4 ⟨true, some (32, fun _ => 7)⟩,
    .insertExt [9, 9, 9, 9, 3] 4 ⟨true, none⟩,
    .insertExt [5, 5, 5, 5, 2] 4 ⟨false, none⟩,
    .insertExt [9, 9, 9, 9, 4] 4 ⟨true, some (48, fun _ => 7)⟩,
    .search [0, 0, 0, 0, 2],
    .iterReset 0,
    .iterNext 0,
    .iterRemove 0,
    .remove [0, 0, 0, 0, 4] ]

theorem sampleCalls_respect :
  ∀ c ∈ sampleCalls, c.Respects poolFunctions
  := by
  intro c hc
  fin_cases hc <;> first | exact ⟨by decide, poolFunctions_ignores⟩ | exact True.intro

/-- The state the sample calls lead to. -/
def sampleState : Option State :=
  execute (step poolFunctions) ⟨create 1, sampleIters⟩ sampleCalls

theorem sampleCalls_finiteSet :
  ∃ s ∈ sampleState, contents s = {⟨32, 2, [7, 7, 7, 7, 2]⟩} ∧
    s.hs.numData = (contents s).ncard ∧
    ∀ c : Call, c.Respects poolFunctions → Permitted s c →
      ∃ s' result, call poolFunctions s c = some (s', result) ∧
        Does poolFunctions s c s' result
  := by
  obtain ⟨s, hs⟩ : ∃ s, sampleState = some s :=
    Option.isSome_iff_exists.mp (by decide)
  have hentries : s.hs.entries = [⟨32, 2, [7, 7, 7, 7, 2]⟩] := by
    have heval : sampleState.map (fun s => s.hs.entries) =
        some [⟨32, 2, [7, 7, 7, 7, 2]⟩] := by decide
    rw [hs] at heval
    exact Option.some.inj heval
  have hall := run_finiteSet poolFunctions_keyed sampleCalls_respect
    (Run.of_execute hs (by decide))
  exact ⟨s, hs, by simp [contents, hentries], hall.2.1.2.1, hall.2.2⟩

/-- The functions of a set that compares whole records. -/
def recordFunctions : HashFunctions where
  hash := fun _ => 0
  compare := fun a b => if a = b then 0 else 1

/-- Where the functions depend on the bytes an insertion leaves alone, the inserted
element is not found. -/
theorem offsetCalls_lost :
  recordFunctions.Keyed ∧
    ∃ s entry, call recordFunctions ⟨create 1, sampleIters⟩
        (.insertExt [1] 1 ⟨true, some (16, fun _ => 7)⟩) = some (s, some entry) ∧
      s.hs.search recordFunctions [1] = none
  := by
  refine ⟨⟨?_, ?_, ?_, ?_⟩, ?_⟩
  · simp [recordFunctions]
  · intro a b
    simp [recordFunctions, eq_comm]
  · intro a b c
    simp +contextual [recordFunctions]
  · simp [recordFunctions]
  · exact ⟨_, _, rfl, by decide⟩

end Hashset
