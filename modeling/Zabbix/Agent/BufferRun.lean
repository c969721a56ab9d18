import Mathlib.Data.List.Basic
import Mathlib.Tactic.Common
import Zabbix.Agent.ActiveBuffer

/-!
# What the buffer of active checks keeps

A buffer is followed together with the values that were put into it (`Tracked`): `owed` are
the persistent values the server has not yet said to have processed, `accepted` all values, in
order of arrival.  The buffer is as it should be (`Kept`) when it is not larger than
configured, counts its persistent elements, holds exactly the owed values as its persistent
elements, and holds its elements in order of arrival.

A step goes wrong in two ways: values are sent and the buffer is emptied although the server
did not answer with success, and in a full buffer a value that is not persistent takes the
place of a persistent one of the same item.  The buffer is as it should be throughout a run
exactly when neither happens (`keeps_iff`).
-/

open Ascii

namespace Agent

/-- A buffer, the persistent values that are still to be sent, and all values it was given. -/
structure Tracked where
  buffer : ActiveBuffer
  owed : List BufferElement
  accepted : List BufferElement
deriving DecidableEq

/-- What can happen to a buffer: values are sent, if it is time to, or a value is added. -/
inductive BufferAction where
  | send (now : ℤ) (outcome : SendOutcome)
  | value (call : ValueCall)

namespace BufferAction

def now : BufferAction → ℤ
  | send now _ => now
  | value call => call.now

def outcome : BufferAction → SendOutcome
  | send _ outcome => outcome
  | value call => call.outcome

end BufferAction

namespace Tracked

variable (config : BufferConfig)

/-- The owed values after the sending in an action. -/
def owedAfter (t : Tracked) (action : BufferAction) : List BufferElement :=
  if t.buffer.sendsNow config action.now ∧ action.outcome.Answered then [] else t.owed

/-- One action. -/
def step (t : Tracked) (action : BufferAction) : Option Tracked :=
  match action with
  | .send now outcome =>
    some { t with
      buffer := (sendBuffer config t.buffer now outcome).1
      owed := t.owedAfter config action }
  | .value call =>
    (processValue config t.buffer call).map fun (buffer, succeeds) =>
      { buffer := buffer
        owed := t.owedAfter config action ++
          (if succeeds && call.persistent then [call.element] else [])
        accepted := t.accepted ++ (if succeeds then [call.element] else []) }

/-- The buffer at first. -/
def start (now : ℤ) : Tracked where
  buffer := .init now
  owed := []
  accepted := []

/-- The buffer is as it should be. -/
structure Kept (t : Tracked) : Prop where
  count_le : t.buffer.data.length ≤ config.bufferSize
  pcount_eq : t.buffer.pcount = (t.buffer.data.filter (·.persistent)).length
  persistent_eq : t.buffer.data.filter (·.persistent) = t.owed
  ordered : t.buffer.data.Sublist t.accepted

instance (t : Tracked) : Decidable (t.Kept config) :=
  decidable_of_iff
    (t.buffer.data.length ≤ config.bufferSize ∧
      t.buffer.pcount = (t.buffer.data.filter (·.persistent)).length ∧
      t.buffer.data.filter (·.persistent) = t.owed ∧ t.buffer.data.Sublist t.accepted)
    ⟨fun ⟨h1, h2, h3, h4⟩ => ⟨h1, h2, h3, h4⟩, fun ⟨h1, h2, h3, h4⟩ => ⟨h1, h2, h3, h4⟩⟩

/-- The action leads to a buffer that is as it should be. -/
def Keeps (t : Tracked) (action : BufferAction) : Prop :=
  ∃ t', t.step config action = some t' ∧ t'.Kept config

instance (t : Tracked) (action : BufferAction) : Decidable (t.Keeps config action) :=
  decidable_of_iff (∃ t' ∈ t.step config action, t'.Kept config) Iff.rfl

/-- The values that are sent without an answer of success are not persistent. -/
def SendsSafely (t : Tracked) (action : BufferAction) : Prop :=
  t.buffer.sendsNow config action.now = true → action.outcome.Sent →
    ¬ action.outcome.Answered → ∀ el ∈ t.buffer.data, el.persistent = false

/-- When a full buffer could not be sent, and a value that is not persistent is added, the
first element with its host and key is not persistent. -/
def ReplacesSafely (t : Tracked) : BufferAction → Prop
  | .send _ _ => True
  | .value call =>
    call.persistent = false → t.buffer.data.length = config.bufferSize → ¬ call.outcome.Sent →
      ∀ el, t.buffer.data.find? call.Matches = some el → el.persistent = false

/-- The condition on an action. -/
def Safe (t : Tracked) (action : BufferAction) : Prop :=
  t.SendsSafely config action ∧ t.ReplacesSafely config action

end Tracked

/-! ### The buffer after the sending -/

variable {config : BufferConfig} {t t' : Tracked} {action : BufferAction}

theorem sendBuffer_of_not_sendsNow {buffer : ActiveBuffer} {now : ℤ} (outcome : SendOutcome)
    (h : buffer.sendsNow config now = false) :
  (sendBuffer config buffer now outcome).1 = buffer
  := by
  rw [sendBuffer.eq_def, h]
  rfl

/-- When the values cannot be sent, they stay in the buffer. -/
theorem sendBuffer_of_not_sent (config : BufferConfig) (buffer : ActiveBuffer) (now : ℤ)
    {outcome : SendOutcome} (h : ¬ outcome.Sent) :
  (sendBuffer config buffer now outcome).1.data = buffer.data ∧
    (sendBuffer config buffer now outcome).1.pcount = buffer.pcount
  := by
  rw [sendBuffer.eq_def]
  split
  · exact ⟨rfl, rfl⟩
  · cases outcome with
    | connectFails => exact ⟨rfl, rfl⟩
    | sendFails => exact ⟨rfl, rfl⟩
    | recvFails => exact absurd trivial h
    | received buf => exact absurd trivial h

/-- When they can, the buffer is emptied. -/
theorem sendBuffer_of_sent {buffer : ActiveBuffer} {now : ℤ} {outcome : SendOutcome}
    (hnow : buffer.sendsNow config now = true) (h : outcome.Sent) :
  (sendBuffer config buffer now outcome).1.data = [] ∧
    (sendBuffer config buffer now outcome).1.pcount = 0
  := by
  rw [sendBuffer.eq_def, hnow]
  cases outcome with
  | connectFails => exact h.elim
  | sendFails => exact h.elim
  | recvFails => exact ⟨rfl, rfl⟩
  | received buf => exact ⟨rfl, rfl⟩

theorem SendOutcome.Answered.sent {outcome : SendOutcome} (h : outcome.Answered) :
  outcome.Sent
  := by
  cases outcome with
  | connectFails => exact h
  | sendFails => exact h
  | recvFails => exact h.elim
  | received buf => trivial

/-- A full buffer is always sent. -/
theorem sendsNow_of_full {buffer : ActiveBuffer} (now : ℤ) (hsize : 2 ≤ config.bufferSize)
    (hfull : buffer.data.length = config.bufferSize) :
  buffer.sendsNow config now = true
  := by
  have hpos : config.bufferSize ≠ 0 := by omega
  simp [ActiveBuffer.sendsNow, hpos, hfull]

namespace Tracked

/-- The buffer after the sending in an action. -/
def sent (config : BufferConfig) (t : Tracked) (action : BufferAction) : Tracked where
  buffer := (sendBuffer config t.buffer action.now action.outcome).1
  owed := t.owedAfter config action
  accepted := t.accepted

/-- The data are sent and the buffer is emptied, or nothing is sent and all stays. -/
theorem sent_cases (config : BufferConfig) (t : Tracked) (action : BufferAction) :
  t.buffer.sendsNow config action.now = true ∧ action.outcome.Sent ∧
      (t.sent config action).buffer.data = [] ∧ (t.sent config action).buffer.pcount = 0 ∨
    ¬ (t.buffer.sendsNow config action.now = true ∧ action.outcome.Sent) ∧
      (t.sent config action).buffer.data = t.buffer.data ∧
      (t.sent config action).buffer.pcount = t.buffer.pcount ∧
      (t.sent config action).owed = t.owed
  := by
  cases hnow : t.buffer.sendsNow config action.now with
  | false =>
    right
    have hbuffer := sendBuffer_of_not_sendsNow action.outcome hnow
    simp [sent, owedAfter, hbuffer, hnow]
  | true =>
    by_cases houtcome : action.outcome.Sent
    · left
      obtain ⟨hdata, hpcount⟩ := sendBuffer_of_sent hnow houtcome
      exact ⟨rfl, houtcome, hdata, hpcount⟩
    · right
      obtain ⟨hdata, hpcount⟩ := sendBuffer_of_not_sent config t.buffer action.now houtcome
      have hanswered : ¬ action.outcome.Answered := fun h => houtcome h.sent
      exact ⟨fun h => houtcome h.2, hdata, hpcount, if_neg fun h => hanswered h.2⟩

theorem kept_iff_of_nil (hdata : t.buffer.data = []) (hpcount : t.buffer.pcount = 0) :
  t.Kept config ↔ t.owed = []
  := by
  constructor
  · intro hkept
    rw [← hkept.persistent_eq, hdata, List.filter_nil]
  · intro howed
    refine ⟨?_, ?_, ?_, ?_⟩
    · rw [hdata]
      exact Nat.zero_le _
    · rw [hdata, hpcount]
      rfl
    · rw [hdata, howed]
      rfl
    · rw [hdata]
      exact List.nil_sublist _

/-- The persistent elements of a buffer that is emptied without an answer of success are
lost. -/
theorem sent_kept_iff (h : t.Kept config) (action : BufferAction) :
  (t.sent config action).Kept config ↔ t.SendsSafely config action
  := by
  obtain ⟨hnow, houtcome, hdata, hpcount⟩ | ⟨hnot, hdata, hpcount, howed⟩ :=
    sent_cases config t action
  · rw [kept_iff_of_nil hdata hpcount]
    by_cases hanswered : action.outcome.Answered
    · refine iff_of_true (if_pos ⟨hnow, hanswered⟩) fun _ _ hno => absurd hanswered hno
    · have howed : (t.sent config action).owed = t.buffer.data.filter (·.persistent) := by
        rw [h.persistent_eq]
        exact if_neg fun hboth => hanswered hboth.2
      rw [howed, List.filter_eq_nil_iff]
      constructor
      · intro hnone _ _ _ el hel
        simpa using hnone el hel
      · intro hsafe el hel
        rw [hsafe hnow houtcome hanswered el hel]
        decide
  · refine iff_of_true ?_ fun hnow houtcome => absurd ⟨hnow, houtcome⟩ hnot
    refine ⟨?_, ?_, ?_, ?_⟩
    · rw [hdata]
      exact h.count_le
    · rw [hdata, hpcount]
      exact h.pcount_eq
    · rw [hdata, howed]
      exact h.persistent_eq
    · rw [hdata]
      exact h.ordered

end Tracked

/-! ### Removing an element -/

theorem eraseIdx_split {data : List BufferElement} {i : ℕ} (h : i < data.length) :
  data = data.take i ++ data[i] :: data.drop (i + 1) ∧
    data.eraseIdx i = data.take i ++ data.drop (i + 1)
  := by
  refine ⟨?_, List.eraseIdx_eq_take_drop_succ _ _⟩
  rw [List.getElem_cons_drop, List.take_append_drop]

/-- Removing an element that is not persistent keeps the persistent ones. -/
theorem filter_eraseIdx {data : List BufferElement} {i : ℕ} (h : i < data.length)
    (hel : data[i].persistent = false) :
  (data.eraseIdx i).filter (·.persistent) = data.filter (·.persistent)
  := by
  obtain ⟨hdata, herase⟩ := eraseIdx_split h
  have hfilter := congrArg (List.filter (·.persistent)) hdata
  rw [herase, hfilter, List.filter_append, List.filter_append, List.filter_cons, hel]
  rfl

/-- Removing a persistent element leaves one less of them. -/
theorem length_filter_eraseIdx {data : List BufferElement} {i : ℕ} (h : i < data.length)
    (hel : data[i].persistent = true) :
  ((data.eraseIdx i).filter (·.persistent)).length + 1 = (data.filter (·.persistent)).length
  := by
  obtain ⟨hdata, herase⟩ := eraseIdx_split h
  have hfilter := congrArg (List.filter (·.persistent)) hdata
  rw [herase, hfilter, List.filter_append, List.filter_append, List.filter_cons, hel, if_pos rfl]
  simp only [List.length_append, List.length_cons]
  omega

/-- When there is an element that is not persistent, an element can be removed; it is not
persistent unless it is the first with the host and key of a value that is not. -/
theorem removedIndex_spec {data : List BufferElement} (call : ValueCall)
    (hmore : (data.filter (·.persistent)).length < data.length) :
  ∃ h : removedIndex data call < data.length,
    data[removedIndex data call].persistent = false ↔
      (call.persistent = false → ∀ el, data.find? call.Matches = some el →
        el.persistent = false)
  := by
  have hexists : ∃ el ∈ data, (!el.persistent) = true := by
    by_contra hnone
    refine hmore.ne (congrArg List.length (List.filter_eq_self.mpr fun el hel => ?_))
    by_contra hfalse
    exact hnone ⟨el, hel, by simpa using hfalse⟩
  have hfind : data.find? call.Matches = data[data.findIdx call.Matches]? :=
    List.find?_eq_getElem?_findIdx
  by_cases hchoice : (call.persistent || data.findIdx call.Matches = data.length) = true
  · have hindex : removedIndex data call = data.findIdx fun el => !el.persistent :=
      if_pos hchoice
    have hlt := List.findIdx_lt_length_of_exists hexists
    refine ⟨hindex ▸ hlt, ?_⟩
    simp only [hindex]
    refine iff_of_true (by simpa using List.findIdx_getElem (w := hlt)) fun hpersistent el hel => ?_
    -- no element has the host and key
    rw [hpersistent, Bool.false_or, decide_eq_true_eq] at hchoice
    rw [hfind, hchoice, List.getElem?_eq_none (Nat.le_refl _)] at hel
    contradiction
  · have hindex : removedIndex data call = data.findIdx call.Matches := if_neg hchoice
    rw [Bool.or_eq_true, not_or, decide_eq_true_eq, Bool.not_eq_true] at hchoice
    have hlt : data.findIdx call.Matches < data.length :=
      List.findIdx_le_length.lt_of_ne hchoice.2
    refine ⟨hindex ▸ hlt, ?_⟩
    simp only [hindex, hfind, List.getElem?_eq_getElem hlt, Option.some.injEq]
    exact ⟨fun h _ el hel => hel ▸ h, fun h => h hchoice.1 _ rfl⟩

namespace Tracked

variable {call : ValueCall}

/-- The buffer is not half full of persistent elements. -/
def HasRoom (config : BufferConfig) (t : Tracked) : Prop :=
  t.buffer.pcount ≤ config.bufferSize / 2

/-- A value is added to a buffer, after the sending. -/
def add (config : BufferConfig) (t : Tracked) (call : ValueCall) : Option Tracked :=
  (addValue config t.buffer call).map fun (buffer, succeeds) =>
    { buffer := buffer
      owed := t.owed ++ (if succeeds && call.persistent then [call.element] else [])
      accepted := t.accepted ++ (if succeeds then [call.element] else []) }

theorem step_value (t : Tracked) (call : ValueCall) :
  t.step config (.value call) = (t.sent config (.value call)).add config call
  := rfl

theorem step_send (t : Tracked) (now : ℤ) (outcome : SendOutcome) :
  t.step config (.send now outcome) = some (t.sent config (.send now outcome))
  := rfl

/-- The element is put behind others. -/
def push (t : Tracked) (call : ValueCall) (data : List BufferElement) : Tracked where
  buffer :=
    { t.buffer with
      data := data ++ [call.element]
      pcount := if call.persistent then t.buffer.pcount + 1 else t.buffer.pcount }
  owed := t.owed ++ if call.persistent then [call.element] else []
  accepted := t.accepted ++ [call.element]

/-- A persistent value that would be one too many is not stored; another is put behind the
elements, or behind those that stay in a full buffer. -/
theorem add_cases (config : BufferConfig) (t : Tracked) (call : ValueCall) :
  call.persistent = true ∧ config.bufferSize / 2 ≤ t.buffer.pcount ∧
      t.add config call = some t ∨
    ¬ (call.persistent = true ∧ config.bufferSize / 2 ≤ t.buffer.pcount) ∧
      (t.buffer.data.length < config.bufferSize ∧
          t.add config call = some (t.push call t.buffer.data) ∨
        config.bufferSize ≤ t.buffer.data.length ∧
          t.add config call =
            if removedIndex t.buffer.data call < t.buffer.data.length then
              some (t.push call (t.buffer.data.eraseIdx (removedIndex t.buffer.data call)))
            else none)
  := by
  unfold add addValue
  by_cases hrefuses : (call.persistent && config.bufferSize / 2 ≤ t.buffer.pcount) = true
  · left
    rw [if_pos hrefuses]
    rw [Bool.and_eq_true, decide_eq_true_eq] at hrefuses
    exact ⟨hrefuses.1, hrefuses.2, by simp⟩
  · right
    rw [if_neg hrefuses]
    rw [Bool.and_eq_true, decide_eq_true_eq] at hrefuses
    refine ⟨hrefuses, ?_⟩
    by_cases hfree : t.buffer.data.length < config.bufferSize
    · left
      rw [if_pos hfree]
      exact ⟨hfree, by simp [push]⟩
    · right
      rw [if_neg hfree]
      refine ⟨Nat.not_lt.mp hfree, ?_⟩
      by_cases hlt : removedIndex t.buffer.data call < t.buffer.data.length
      · rw [if_pos hlt, if_pos hlt]
        simp [push]
      · rw [if_neg hlt, if_neg hlt]
        rfl

/-- What is put behind elements that are as they should be is as it should be. -/
theorem push_kept (h : t.Kept config) (call : ValueCall) {data : List BufferElement}
    (hlength : data.length < config.bufferSize) (hsublist : data.Sublist t.buffer.data)
    (hfilter : data.filter (·.persistent) = t.buffer.data.filter (·.persistent)) :
  (t.push call data).Kept config
  := by
  have hcall : call.element.persistent = call.persistent := rfl
  refine ⟨?_, ?_, ?_, ?_⟩
  · simp only [push, List.length_append, List.length_singleton]
    exact hlength
  · have hpcount := h.pcount_eq
    cases hpersistent : call.persistent <;>
      simp [push, List.filter_append, hcall, hpersistent, hfilter, hpcount]
  · have howed := h.persistent_eq
    cases hpersistent : call.persistent <;>
      simp [push, List.filter_append, hcall, hpersistent, hfilter, howed]
  · exact (hsublist.trans h.ordered).append (List.Sublist.refl _)

/-- What is put behind less persistent elements than are owed is not. -/
theorem push_not_kept (call : ValueCall) {data : List BufferElement}
    (hfew : (data.filter (·.persistent)).length < t.owed.length) :
  ¬ (t.push call data).Kept config
  := by
  intro hkept
  have hlengths := congrArg List.length hkept.persistent_eq
  have hcall : call.element.persistent = call.persistent := rfl
  cases hpersistent : call.persistent <;>
    simp [push, List.filter_append, hcall, hpersistent] at hlengths <;> omega

/-- A value is added as it should be unless it takes the place of a persistent one. -/
theorem add_keeps_iff (h : t.Kept config) (hroom : t.HasRoom config)
    (hsize : 2 ≤ config.bufferSize) (call : ValueCall) :
  (∃ t', t.add config call = some t' ∧ t'.Kept config) ↔
    (call.persistent = false → t.buffer.data.length = config.bufferSize →
      ∀ el, t.buffer.data.find? call.Matches = some el → el.persistent = false)
  := by
  obtain ⟨hpersistent, -, hadd⟩ | ⟨-, ⟨hfree, hadd⟩ | ⟨hfull, hadd⟩⟩ :=
    add_cases config t call
  · refine iff_of_true ⟨t, hadd, h⟩ fun hno => ?_
    rw [hpersistent] at hno
    contradiction
  · refine iff_of_true ⟨_, hadd, ?_⟩ fun _ hfull => absurd hfull hfree.ne
    exact push_kept h call hfree (List.Sublist.refl _) rfl
  · have hfull' : t.buffer.data.length = config.bufferSize := h.count_le.antisymm hfull
    have hpcount := h.pcount_eq
    have hmore : (t.buffer.data.filter (·.persistent)).length < t.buffer.data.length := by
      unfold HasRoom at hroom
      omega
    obtain ⟨hlt, hiff⟩ := removedIndex_spec call hmore
    have hrequired : (call.persistent = false → t.buffer.data.length = config.bufferSize →
        ∀ el, t.buffer.data.find? call.Matches = some el → el.persistent = false) ↔
          t.buffer.data[removedIndex t.buffer.data call].persistent = false := by
      rw [hiff]
      exact forall_congr' fun _ => ⟨fun hall => hall hfull', fun hall _ => hall⟩
    rw [hrequired, hadd, if_pos hlt]
    constructor
    · rintro ⟨t', ht', hkept⟩
      obtain rfl := Option.some.inj ht'
      cases hremoved : t.buffer.data[removedIndex t.buffer.data call].persistent with
      | false => rfl
      | true =>
        have hlength := length_filter_eraseIdx hlt hremoved
        refine absurd hkept (push_not_kept call ?_)
        rw [← h.persistent_eq]
        omega
    · intro hremoved
      refine ⟨_, rfl, push_kept h call ?_ (List.eraseIdx_sublist _ _)
        (filter_eraseIdx hlt hremoved)⟩
      rw [List.length_eraseIdx_of_lt hlt]
      omega

/-- Once persistent values are lost, adding a value does not bring them back. -/
theorem add_not_kept (hsize : 2 ≤ config.bufferSize) (hdata : t.buffer.data = [])
    (hpcount : t.buffer.pcount = 0) (howed : t.owed ≠ []) (call : ValueCall) :
  ¬ ∃ t', t.add config call = some t' ∧ t'.Kept config
  := by
  rintro ⟨t', ht', hkept⟩
  obtain ⟨-, hmany, -⟩ | ⟨-, ⟨-, hadd⟩ | ⟨hfull, -⟩⟩ := add_cases config t call
  · omega
  · rw [hadd] at ht'
    obtain rfl := Option.some.inj ht'
    refine push_not_kept call ?_ hkept
    rw [hdata]
    exact List.length_pos_iff.mpr howed
  · rw [hdata, List.length_nil] at hfull
    omega

theorem hasRoom_add (hroom : t.HasRoom config) {call : ValueCall}
    (hadd : t.add config call = some t') :
  t'.HasRoom config
  := by
  have hpush : ∀ data, ¬ (call.persistent = true ∧ config.bufferSize / 2 ≤ t.buffer.pcount) →
      (t.push call data).HasRoom config := by
    intro data hrefuses
    unfold HasRoom at hroom ⊢
    cases hpersistent : call.persistent with
    | false => simpa [push, hpersistent] using hroom
    | true =>
      have hless : ¬ config.bufferSize / 2 ≤ t.buffer.pcount := fun h => hrefuses ⟨hpersistent, h⟩
      simp only [push, hpersistent, if_true]
      omega
  obtain ⟨-, -, heq⟩ | ⟨hrefuses, ⟨-, heq⟩ | ⟨-, heq⟩⟩ := add_cases config t call
  · rw [heq] at hadd
    obtain rfl := Option.some.inj hadd
    exact hroom
  · rw [heq] at hadd
    obtain rfl := Option.some.inj hadd
    exact hpush _ hrefuses
  · rw [heq] at hadd
    split at hadd
    · obtain rfl := Option.some.inj hadd
      exact hpush _ hrefuses
    · contradiction

theorem hasRoom_sent (hroom : t.HasRoom config) (action : BufferAction) :
  (t.sent config action).HasRoom config
  := by
  unfold HasRoom at hroom ⊢
  obtain ⟨-, -, -, hpcount⟩ | ⟨-, -, hpcount, -⟩ := sent_cases config t action
  · rw [hpcount]
    exact Nat.zero_le _
  · rw [hpcount]
    exact hroom

theorem hasRoom_step (hroom : t.HasRoom config) (hstep : t.step config action = some t') :
  t'.HasRoom config
  := by
  have hsent := hasRoom_sent hroom action
  cases action with
  | send now outcome =>
    rw [step_send] at hstep
    obtain rfl := Option.some.inj hstep
    exact hsent
  | value call =>
    rw [step_value] at hstep
    exact hasRoom_add hsent hstep

/-- An action keeps the buffer as it should be exactly when it is safe. -/
theorem keeps_iff_safe (h : t.Kept config) (hroom : t.HasRoom config)
    (hsize : 2 ≤ config.bufferSize) (action : BufferAction) :
  t.Keeps config action ↔ t.Safe config action
  := by
  have hsent := sent_kept_iff h action
  cases action with
  | send now outcome =>
    unfold Keeps Safe
    rw [step_send, ← hsent]
    constructor
    · rintro ⟨t', ht', hkept⟩
      obtain rfl := Option.some.inj ht'
      exact ⟨hkept, trivial⟩
    · exact fun hsafe => ⟨_, rfl, hsafe.1⟩
  | value call =>
    unfold Keeps Safe
    rw [step_value, ← hsent]
    by_cases hkept : (t.sent config (.value call)).Kept config
    · rw [add_keeps_iff hkept (hasRoom_sent hroom _) hsize call, and_iff_right hkept]
      -- a buffer that is full after the sending was full before, and was not sent
      obtain ⟨hnow, houtcome, hdata, -⟩ | ⟨hnot, hdata, -, -⟩ :=
        sent_cases config t (.value call)
      · refine iff_of_true (fun _ hfull => ?_) fun _ _ hno => absurd houtcome hno
        rw [hdata, List.length_nil] at hfull
        omega
      · rw [hdata]
        refine forall_congr' fun _ => ⟨fun hall hfull _ => hall hfull, fun hall hfull => ?_⟩
        exact hall hfull fun houtcome => hnot ⟨sendsNow_of_full call.now hsize hfull, houtcome⟩
    · refine iff_of_false ?_ fun hsafe => hkept hsafe.1
      obtain ⟨-, -, hdata, hpcount⟩ | ⟨hnot, -, -, -⟩ := sent_cases config t (.value call)
      · apply add_not_kept hsize hdata hpcount
        exact fun howed => hkept ((kept_iff_of_nil hdata hpcount).mpr howed)
      · exact absurd (hsent.mpr fun hnow houtcome => absurd ⟨hnow, houtcome⟩ hnot) hkept

theorem start_kept (config : BufferConfig) (now : ℤ) :
  (start now).Kept config ∧ (start now).HasRoom config
  := ⟨(kept_iff_of_nil rfl rfl).mpr rfl, Nat.zero_le _⟩

theorem meetsAll_keeps_iff (hsize : 2 ≤ config.bufferSize) (h : t.Kept config)
    (hroom : t.HasRoom config) (actions : List BufferAction) :
  MeetsAll (step config) (Keeps config) t actions ↔
    MeetsAll (step config) (Safe config) t actions
  := by
  induction actions generalizing t with
  | nil => exact Iff.rfl
  | cons action actions ih =>
    unfold MeetsAll
    rw [keeps_iff_safe h hroom hsize action]
    refine and_congr_right fun hsafe => forall₂_congr fun t' ht' => ?_
    obtain ⟨t'', ht'', hkept⟩ := (keeps_iff_safe h hroom hsize action).mpr hsafe
    obtain rfl : t'' = t' := Option.some.inj (ht''.symm.trans ht')
    exact ih hkept (hasRoom_step hroom ht'')

end Tracked

/-- In a run from the empty buffer every state is as it should be exactly when every action
is safe. -/
theorem keeps_iff (hsize : 2 ≤ config.bufferSize) (now : ℤ) (actions : List BufferAction) :
  MeetsAll (Tracked.step config) (Tracked.Keeps config) (.start now) actions ↔
    MeetsAll (Tracked.step config) (Tracked.Safe config) (.start now) actions
  := by
  obtain ⟨hkept, hroom⟩ := Tracked.start_kept config now
  exact Tracked.meetsAll_keeps_iff hsize hkept hroom actions

/-! ### Runs -/

/-- Two elements, and sending every five seconds. -/
def sampleConfig : BufferConfig := ⟨2, 5⟩

/-- A value of the item `log`. -/
def sampleCall (persistent : Bool) (now : ℤ) (outcome : SendOutcome) : ValueCall where
  host := bytes ['h']
  key := bytes ['l', 'o', 'g']
  value := some (bytes ['x'])
  lastlogsize := some 7
  mtime := none
  timestamp := none
  source := none
  severity := none
  logeventid := none
  persistent := persistent
  now := now
  outcome := outcome
  ts := ⟨now, 0⟩

theorem keeps_iff_sample :
  MeetsAll (Tracked.step sampleConfig) (Tracked.Keeps sampleConfig) (.start 0)
      [.value (sampleCall true 1 .connectFails), .value (sampleCall false 2 .sendFails)] ↔
    MeetsAll (Tracked.step sampleConfig) (Tracked.Safe sampleConfig) (.start 0)
      [.value (sampleCall true 1 .connectFails), .value (sampleCall false 2 .sendFails)]
  := keeps_iff (by decide) 0 _

/-- A persistent value is lost when the answer is not received. -/
def recvFailure : List BufferAction :=
  [.value (sampleCall true 1 .connectFails), .value (sampleCall true 9 .recvFails)]

/-- A persistent value is replaced in a full buffer by one that is not persistent, and stays
counted. -/
def replacement : List BufferAction :=
  [.value (sampleCall true 1 .connectFails), .value (sampleCall false 2 .connectFails),
    .value (sampleCall false 3 .connectFails)]

/-- In both runs the buffer does not stay as it should be. -/
theorem buffer_not_kept :
  ¬ MeetsAll (Tracked.step sampleConfig) (Tracked.Keeps sampleConfig) (.start 0) recvFailure ∧
    ¬ MeetsAll (Tracked.step sampleConfig) (Tracked.Keeps sampleConfig) (.start 0) replacement
  := by decide

end Agent
