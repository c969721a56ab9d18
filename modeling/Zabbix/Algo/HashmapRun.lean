import Zabbix.Algo.Hashmap

/-!
# Runs of a hashmap

After any calls of the interface a hashmap is the finite function the calls describe: a key
has the value it was last set to, unless it was removed or everything was cleared since, and
`num_data` counts the keys.
-/

namespace Hashmap

/-- The calls of the interface. -/
inductive Call (V : Type) where
  | set (key : UInt64) (value : V)
  | get (key : UInt64)
  | remove (key : UInt64)
  | clear
deriving DecidableEq

variable {V : Type} (hash : UInt64 → UInt32)

/-- The hashmap after a call. -/
def step (hm : Hashmap V) : Call V → Hashmap V
  | .set key value => hm.set hash key value
  | .get _ => hm
  | .remove key => hm.remove hash key
  | .clear => hm.clear

/-- The hashmap after the calls. -/
def run (initSize : ℕ) (calls : List (Call V)) : Hashmap V :=
  calls.foldl (step hash) (create initSize)

/-- The function after a call. -/
def applyCall (m : UInt64 → Option V) : Call V → UInt64 → Option V
  | .set key value => Function.update m key (some value)
  | .get _ => m
  | .remove key => Function.update m key none
  | .clear => fun _ => none

/-- The call gives the key a value or takes its value away. -/
def Call.Touches (key : UInt64) : Call V → Prop
  | .set key' _ => key' = key
  | .get _ => False
  | .remove key' => key' = key
  | .clear => True

/-- The value is the last one the key was set to, and the key was not removed since. -/
def LastSet (calls : List (Call V)) (key : UInt64) (value : V) : Prop :=
  ∃ before after, calls = before ++ .set key value :: after ∧
    ∀ c ∈ after, ¬ c.Touches key

variable {hash} {hm : Hashmap V} {key : UInt64} {value : V}

/-- One call keeps the hashmap sound and does to the function what it should. -/
theorem Sound.step (h : Sound hash hm) (c : Call V) :
  Sound hash (hm.step hash c) ∧ (hm.step hash c).get hash = applyCall (hm.get hash) c
  := by
  cases c with
  | set key value => exact ⟨(h.set key value).1, h.get_set key value⟩
  | get key => exact ⟨h, rfl⟩
  | remove key => exact ⟨(h.remove key).1, h.get_remove key⟩
  | clear => exact ⟨h.clear.1, h.get_clear⟩

variable (hash) in
/-- All calls keep the hashmap sound and do to the function what they should. -/
theorem run_refines (initSize : ℕ) (calls : List (Call V)) :
  Sound hash (run hash initSize calls) ∧
    (run hash initSize calls).get hash = calls.foldl applyCall fun _ => none
  := by
  induction calls using List.reverseRecOn with
  | nil => exact ⟨sound_create initSize, get_create initSize⟩
  | append_singleton calls c ih =>
    obtain ⟨hsound, hget⟩ := ih
    obtain ⟨hstep, hcall⟩ := hsound.step c
    rw [run, List.foldl_concat, List.foldl_concat, ← hget]
    exact ⟨hstep, hcall⟩

/-! ### The last value of a key -/

theorem not_lastSet_nil :
  ¬ LastSet [] key value
  := by
  rintro ⟨before, after, h, -⟩
  simp at h

theorem lastSet_concat_of_not_touches {calls : List (Call V)} {c : Call V}
    (h : ¬ c.Touches key) :
  LastSet (calls ++ [c]) key value ↔ LastSet calls key value
  := by
  constructor
  · rintro ⟨before, after, hcalls, hafter⟩
    cases after using List.reverseRecOn with
    | nil =>
      obtain ⟨-, hc⟩ := List.append_inj' hcalls rfl
      obtain rfl := List.singleton_inj.mp hc
      exact absurd rfl h
    | append_singleton after last =>
      rw [← List.cons_append, ← List.append_assoc] at hcalls
      obtain ⟨rfl, -⟩ := List.append_inj' hcalls rfl
      exact ⟨before, after, rfl, fun c' hc' => hafter c' (List.mem_append_left _ hc')⟩
  · rintro ⟨before, after, rfl, hafter⟩
    refine ⟨before, after ++ [c], by simp, ?_⟩
    intro c' hc'
    obtain hc' | hc' := List.mem_append.mp hc'
    · exact hafter c' hc'
    · rwa [List.mem_singleton.mp hc']

theorem lastSet_concat_of_touches {calls : List (Call V)} {c : Call V} (h : c.Touches key) :
  LastSet (calls ++ [c]) key value ↔ c = .set key value
  := by
  constructor
  · rintro ⟨before, after, hcalls, hafter⟩
    cases after using List.reverseRecOn with
    | nil =>
      obtain ⟨-, hc⟩ := List.append_inj' hcalls rfl
      exact List.singleton_inj.mp hc
    | append_singleton after last =>
      rw [← List.cons_append, ← List.append_assoc] at hcalls
      obtain ⟨-, hc⟩ := List.append_inj' hcalls rfl
      rw [List.singleton_inj.mp hc] at h
      exact absurd h (hafter last (by simp))
  · rintro rfl
    exact ⟨calls, [], rfl, by simp⟩

/-- The function the calls describe has the last values of the keys. -/
theorem foldl_applyCall_eq_some_iff (calls : List (Call V)) (key : UInt64) (value : V) :
  calls.foldl applyCall (fun _ => none) key = some value ↔ LastSet calls key value
  := by
  induction calls using List.reverseRecOn with
  | nil => simp [not_lastSet_nil]
  | append_singleton calls c ih =>
    rw [List.foldl_concat]
    by_cases htouches : c.Touches key
    · rw [lastSet_concat_of_touches htouches]
      cases c with
      | set key' value' =>
        obtain rfl : key' = key := htouches
        simp [applyCall]
      | get key' => cases htouches
      | remove key' =>
        obtain rfl : key' = key := htouches
        simp [applyCall]
      | clear => simp [applyCall]
    · rw [lastSet_concat_of_not_touches htouches, ← ih]
      cases c with
      | set key' value' => rw [applyCall, Function.update_of_ne (Ne.symm htouches)]
      | get key' => rfl
      | remove key' => rw [applyCall, Function.update_of_ne (Ne.symm htouches)]
      | clear => exact absurd True.intro htouches

/-- `num_data` is the number of keys that have a value. -/
theorem Sound.numData_eq_ncard (h : Sound hash hm) :
  hm.numData = {key | (hm.get hash key).isSome}.ncard
  := by
  have hkeys : {key | (hm.get hash key).isSome} =
      {key | key ∈ hm.entries.map HashmapEntry.key} := by
    ext key
    constructor
    · intro hkey
      obtain ⟨value, hvalue⟩ := Option.isSome_iff_exists.mp hkey
      exact List.mem_map_of_mem (f := HashmapEntry.key) (h.get_eq_some_iff.mp hvalue)
    · intro hkey
      obtain ⟨entry, hentry, rfl⟩ := List.mem_map.mp hkey
      exact Option.isSome_iff_exists.mpr ⟨entry.value, h.get_eq_some_iff.mpr hentry⟩
  rw [hkeys, Chains.ncard_of_nodup h.distinct, List.length_map, h.counted]

/-- After any calls the hashmap is a finite function: it has the last values of the keys, it
counts the keys, and it has no key twice. -/
theorem run_finiteMap (hash : UInt64 → UInt32) (initSize : ℕ) (calls : List (Call V)) :
  (∀ key value, (run hash initSize calls).get hash key = some value ↔
      LastSet calls key value) ∧
    (run hash initSize calls).numData =
      {key | ((run hash initSize calls).get hash key).isSome}.ncard ∧
    ((run hash initSize calls).entries.map HashmapEntry.key).Nodup
  := by
  obtain ⟨hsound, hget⟩ := run_refines hash initSize calls
  refine ⟨?_, hsound.numData_eq_ncard, hsound.distinct⟩
  intro key value
  rw [hget]
  exact foldl_applyCall_eq_some_iff calls key value

end Hashmap
