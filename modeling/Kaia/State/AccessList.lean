import Mathlib
import Kaia.Istanbul.Types

/-! # The access list

Addresses point into a list of slot sets; an address without slots has no index. The
journal takes back the additions in reverse order, so the set that loses its last slot
is always the last one of the list.
-/

namespace Kaia

/-- The ways a run of the program stops without an answer. -/
inductive Crash
  | goPanic (p : GoPanic)
  | refundCounterBelowZero
  | revisionCannotBeReverted
  | slotAddressNotPresent
  | addressNotInAccessList
  | invalidMemory
  | encodeObject
  | outOfFuel
  deriving DecidableEq

/-- `none` is an address that is not listed, `some none` one that has no slots. -/
structure AccessList where
  addresses : Address → Option (Option ℕ)
  slots : List (Finset Hash)

namespace AccessList

def newAccessList : AccessList := ⟨fun _ => none, []⟩

variable (al : AccessList) (a : Address)

def containsAddress : Bool := (al.addresses a).isSome

/-- Whether the address is listed, and whether the slot is. -/
def contains (slot : Hash) : Except Crash (Bool × Bool) :=
  match al.addresses a with
  | none => .ok (false, false)
  | some none => .ok (true, false)
  | some (some idx) =>
    match al.slots[idx]? with
    | none => .error (.goPanic .indexOutOfRange)
    | some slotmap => .ok (true, decide (slot ∈ slotmap))

def addAddress : AccessList × Bool :=
  match al.addresses a with
  | some _ => (al, false)
  | none => ({ al with addresses := Function.update al.addresses a (some none) }, true)

/-- List a slot; the flags tell whether the address and the slot were missing. -/
def addSlot (slot : Hash) : Except Crash (AccessList × Bool × Bool) :=
  match al.addresses a with
  | some (some idx) =>
    match al.slots[idx]? with
    | none => .error (.goPanic .indexOutOfRange)
    | some slotmap =>
      if slot ∈ slotmap then .ok (al, false, false)
      else .ok ({ al with slots := al.slots.set idx (insert slot slotmap) }, false, true)
  | other =>
    .ok (⟨Function.update al.addresses a (some (some al.slots.length)), al.slots ++ [{slot}]⟩,
      other.isNone, true)

/-- Take a slot back; with the last slot of an address every set behind it is cut off. -/
def deleteSlot (slot : Hash) : Except Crash AccessList :=
  match al.addresses a with
  | none => .error .slotAddressNotPresent
  | some none => .error (.goPanic .indexOutOfRange)
  | some (some idx) =>
    match al.slots[idx]? with
    | none => .error (.goPanic .indexOutOfRange)
    | some slotmap =>
      if slotmap.erase slot = ∅ then
        .ok ⟨Function.update al.addresses a (some none), al.slots.take idx⟩
      else .ok { al with slots := al.slots.set idx (slotmap.erase slot) }

def deleteAddress : AccessList :=
  { al with addresses := Function.update al.addresses a none }

/-- Every index points at a set, and no set is empty. -/
structure Wf (al : AccessList) : Prop where
  idx_lt : ∀ a idx, al.addresses a = some (some idx) → idx < al.slots.length
  slots_nonempty : ∀ slotmap ∈ al.slots, slotmap ≠ ∅

theorem newAccessList_wf : newAccessList.Wf where
  idx_lt := by simp [newAccessList]
  slots_nonempty := by simp [newAccessList]

variable {al al' : AccessList} {a b : Address} {slot : Hash}

theorem Wf.get_eq_some (h : al.Wf) {idx : ℕ} (ha : al.addresses a = some (some idx)) :
    ∃ slotmap, al.slots[idx]? = some slotmap ∧ slotmap ≠ ∅ := by
  have hlt := h.idx_lt a idx ha
  exact ⟨_, List.getElem?_eq_getElem hlt, h.slots_nonempty _ (List.getElem_mem hlt)⟩

theorem Wf.contains_eq_ok (h : al.Wf) (a : Address) (slot : Hash) :
    ∃ b, al.contains a slot = .ok (al.containsAddress a, b) := by
  unfold contains containsAddress
  split
  · next ha => exact ⟨false, by rw [ha]; rfl⟩
  · next ha => exact ⟨false, by rw [ha]; rfl⟩
  · next idx ha =>
    obtain ⟨slotmap, hslots, -⟩ := h.get_eq_some ha
    exact ⟨decide (slot ∈ slotmap), by rw [hslots, ha]; rfl⟩

theorem addAddress_of_none (ha : al.addresses a = none) :
    al.addAddress a = ({ al with addresses := Function.update al.addresses a (some none) }, true) := by
  simp [addAddress, ha]

theorem addAddress_of_some {i : Option ℕ} (ha : al.addresses a = some i) :
    al.addAddress a = (al, false) := by
  simp [addAddress, ha]

theorem Wf.addAddress (h : al.Wf) (a : Address) : (al.addAddress a).1.Wf := by
  cases ha : al.addresses a with
  | some i => rwa [addAddress_of_some ha]
  | none =>
    rw [addAddress_of_none ha]
    refine ⟨fun b idx hb => ?_, h.slots_nonempty⟩
    by_cases hba : b = a
    · subst hba; simp at hb
    · exact h.idx_lt b idx (by simpa [Function.update_of_ne hba] using hb)

/-- Nothing, a new slot in the set of the address, or a new set for the address. -/
inductive Added (al : AccessList) (a : Address) (slot : Hash) : AccessList → Bool → Bool → Prop
  | known : Added al a slot al false false
  | inserted {idx : ℕ} {slotmap : Finset Hash} (ha : al.addresses a = some (some idx))
      (hslots : al.slots[idx]? = some slotmap) (hne : slotmap ≠ ∅) (hslot : slot ∉ slotmap) :
      Added al a slot { al with slots := al.slots.set idx (insert slot slotmap) } false true
  | opened {addrMod : Bool} (ha : al.addresses a = if addrMod then none else some none) :
      Added al a slot ⟨Function.update al.addresses a (some (some al.slots.length)),
        al.slots ++ [{slot}]⟩ addrMod true

theorem Wf.addSlot_eq_ok (h : al.Wf) (a : Address) (slot : Hash) :
    ∃ al' addrMod slotMod, al.addSlot a slot = .ok (al', addrMod, slotMod) ∧
      Added al a slot al' addrMod slotMod := by
  unfold AccessList.addSlot
  split
  · next idx ha =>
    obtain ⟨slotmap, hslots, hne⟩ := h.get_eq_some ha
    rw [hslots]
    by_cases hslot : slot ∈ slotmap
    · exact ⟨al, false, false, by simp [hslot], .known⟩
    · exact ⟨_, false, true, by simp only [hslot, if_false], .inserted ha hslots hne hslot⟩
  · next other hother =>
    refine ⟨_, _, _, rfl, .opened ?_⟩
    rcases ho : al.addresses a with _ | _ | idx
    · rfl
    · rfl
    · exact absurd ho (hother idx)

theorem Added.wf {addrMod slotMod : Bool} (h : al.Wf) (hadd : Added al a slot al' addrMod slotMod) :
    al'.Wf := by
  cases hadd with
  | known => exact h
  | inserted ha hslots hne hslot =>
    refine ⟨fun b idx hb => by simpa using h.idx_lt b idx hb, fun s hs => ?_⟩
    rcases List.mem_or_eq_of_mem_set hs with hs | rfl
    · exact h.slots_nonempty s hs
    · exact (Finset.insert_nonempty _ _).ne_empty
  | opened ha =>
    refine ⟨fun b idx hb => ?_, fun s hs => ?_⟩
    · by_cases hba : b = a
      · subst hba
        obtain rfl : al.slots.length = idx := by simpa using hb
        simp
      · have := h.idx_lt b idx (by simpa [Function.update_of_ne hba] using hb)
        simp only [List.length_append, List.length_singleton]
        omega
    · rcases List.mem_append.mp hs with hs | hs
      · exact h.slots_nonempty s hs
      · obtain rfl : s = {slot} := by simpa using hs
        exact Finset.singleton_ne_empty slot

theorem deleteAddress_addAddress (ha : al.addresses a = none) :
    (al.addAddress a).1.deleteAddress a = al := by
  rw [addAddress_of_none ha]
  simp [deleteAddress, ← ha]

theorem Added.deleteSlot_eq_ok {addrMod : Bool} (hadd : Added al a slot al' addrMod true) :
    al'.deleteSlot a slot = .ok (if addrMod then (al.addAddress a).1 else al) := by
  cases hadd with
  | @inserted idx slotmap ha hslots hne hslot =>
    have hidx : idx < al.slots.length := (List.getElem?_eq_some_iff.mp hslots).1
    have hset : al.slots.set idx slotmap = al.slots := by
      rw [← (List.getElem?_eq_some_iff.mp hslots).2]
      exact List.set_getElem_self hidx
    simp [deleteSlot, ha, hidx, Finset.erase_insert hslot, hne, hset]
  | opened ha =>
    have herase : ({slot} : Finset Hash).erase slot = ∅ := Finset.erase_singleton slot
    cases addrMod with
    | true =>
      rw [addAddress_of_none (by simpa using ha)]
      simp [deleteSlot, herase]
    | false =>
      have hself : Function.update al.addresses a (some none) = al.addresses := by
        exact Function.update_eq_self_iff.mpr (by simpa using ha.symm)
      simp [deleteSlot, herase, hself]

end AccessList

end Kaia
