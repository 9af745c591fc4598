/-
This file models the device list of `kern/dev/index/devlist.c`, the index behind `dev_add`,
`dev_remove`, `dev_from_id` and `dev_from_name` once its `__init` has installed it.

The list is a ring of entries through the head `__head`; an entry holds a pointer to a device.
The model works on memory as the code does: the field of an entry is the cell at the field's
address, and the list operations are the writes of `include/list.h`. The devices themselves
are not changed by the list, so they are given by a function from their addresses. What
`kmalloc` answers when it is asked for an entry is an argument.

A loop over the list follows the links, so it is given a number of steps it may take; `none`
is a loop that has not come to its end by then.
-/

import AIMv6.CString
import AIMv6.FreeList
import AIMv6.StableOrder

namespace AIMv6

open List Nat Option Function

namespace DeviceList

/-! ### Devices -/

/-- What the list reads of `struct device`: the name, two fields of type `int`, and the address
of the bus, zero for `NULL`. -/
structure Device where
  name : CString
  idMajor : BitVec 32
  idMinor : BitVec 32
  bus : Nat
  deriving DecidableEq, Repr

/-- `__cmp`, on the devices of two entries. -/
def cmp (first second : Device) : Int :=
  if second.idMajor.slt first.idMajor then 1
  else if first.idMajor.slt second.idMajor then -1
  else if second.idMinor.slt first.idMinor then 1
  else if first.idMinor.slt second.idMinor then -1
  else 0

/-! ### Entries -/

/-- `sizeof(struct device_entry)`; the field `dev` comes first. -/
def entrySize (abi : Abi) : Nat := 3 * abi.wordSize

/-- `&entry->node`. -/
def node (abi : Abi) (entry : Nat) : Nat := entry + abi.wordSize

/-- `list_entry(node, struct device_entry, node)`. -/
def entry (abi : Abi) (node : Nat) : Nat := node - abi.wordSize

section Calls

variable (abi : Abi) (head : Nat) (devices : Nat → Device)

/-- `__add`, with the answer of `kmalloc`: an address, or `none` for `NULL`. The result is the
value returned and the memory. -/
def devAdd (fuel dev : Nat) (answer : Option Nat) (mem : Memory) : Option (Int × Memory) :=
  match answer with
  | none => some (eof, mem)
  | some this =>
    let mem := Function.update mem this dev
    match Ring.seek mem head
        (fun tmp => 0 < cmp (devices (mem (entry abi tmp))) (devices (mem this))) fuel
        (mem head) with
    | none => none
    | some tmp => some (0, FreeList.listAddBefore abi mem (node abi this) tmp)

/-- The loop of `__remove` from one position on, with the value of `this` there: `some none` when
it is left for a connected device, otherwise the value of `this` at its end. -/
def removeScan (dev : Nat) (mem : Memory) : Nat → Nat → Nat → Option (Option Nat)
  | 0, _, _ => none
  | fuel + 1, pos, this =>
    if pos = head then some (some this)
    else
      let tmp := entry abi pos
      if (devices (mem tmp)).bus = dev then some none
      else removeScan dev mem fuel (mem pos) (if mem tmp = dev then tmp else this)

/-- `__remove`: the value returned, the entry given to `kfree`, if any, and the memory. -/
def devRemove (fuel dev : Nat) (mem : Memory) : Option (Int × Option Nat × Memory) :=
  match removeScan abi head devices dev mem fuel (mem head) 0 with
  | none => none
  | some none => some (eof, none, mem)
  | some (some this) =>
    if this ≠ 0 then some (0, some this, FreeList.listDel abi mem (node abi this))
    else some (eof, none, mem)

/-- The loop of the two lookups, and what they return after it; zero is `NULL`. -/
def search (fuel : Nat) (wanted : Device → Bool) (mem : Memory) : Option Nat :=
  match Ring.seek mem head (fun tmp => wanted (devices (mem (entry abi tmp)))) fuel (mem head) with
  | none => none
  | some tmp => some (if tmp ≠ head then mem (entry abi tmp) else 0)

/-- `__from_id`; the arguments are of type `devid_t`, which is `unsigned long`, and the fields
they are compared with are extended to it. -/
def devFromId (fuel : Nat) (major minor : BitVec abi.bits) (mem : Memory) : Option Nat :=
  search abi head devices fuel (fun device =>
    device.idMajor.signExtend abi.bits = major ∧ device.idMinor.signExtend abi.bits = minor) mem

/-- `__from_name`. -/
def devFromName (fuel : Nat) (name : CString) (mem : Memory) : Option Nat :=
  search abi head devices fuel (fun device => strcmp device.name name = 0) mem

/-- The devices a loop over the list comes by. -/
def contents (mem : Memory) : Nat → Nat → Option (List Nat)
  | 0, _ => none
  | fuel + 1, pos =>
    if pos = head then some []
    else (contents mem fuel (mem pos)).map fun rest => mem (entry abi pos) :: rest

end Calls

/-! ### Comparing -/

/-- The key the list is sorted by. -/
def key (device : Device) : Int ×ₗ Int := toLex (device.idMajor.toInt, device.idMinor.toInt)

variable {first second : Device} {others : List Nat} {fuel : Nat}

theorem cmp_pos : 0 < cmp first second ↔ key second < key first := by
  unfold cmp key
  simp only [BitVec.slt_eq_decide, decide_eq_true_eq, Prod.Lex.toLex_lt_toLex]
  split_ifs <;> omega

theorem key_injective :
    key first = key second ↔ first.idMajor = second.idMajor ∧ first.idMinor = second.idMinor := by
  rw [key, key, EmbeddingLike.apply_eq_iff_eq, Prod.mk.injEq, BitVec.toInt_inj, BitVec.toInt_inj]

/-! ### The list in memory -/

/-- Entries that overlap neither each other nor the list head. -/
structure Apart (abi : Abi) (head : Nat) (entries : List Nat) : Prop where
  pairwise : entries.Pairwise fun first second =>
    first + entrySize abi ≤ second ∨ second + entrySize abi ≤ first
  outside : ∀ entry ∈ entries, 0 < entry ∧
    (entry + entrySize abi ≤ head ∨ head + 2 * abi.wordSize ≤ entry)

/-- The memory holds the list of the given entries. -/
structure Represents (abi : Abi) (head : Nat) (mem : Memory) (entries : List Nat) : Prop where
  ring : Ring.IsRing abi.wordSize mem head (entries.map (node abi))
  apart : Apart abi head entries

variable {abi : Abi} {head : Nat} {devices : Nat → Device} {mem after : Memory}
  {entries front back : List Nat}

@[simp] theorem entry_node (place : Nat) : entry abi (node abi place) = place :=
  Nat.add_sub_cancel place abi.wordSize

theorem Apart.perm (apart : Apart abi head entries)
    (same : entries.Perm others) : Apart abi head others :=
  ⟨(same.pairwise_iff Or.symm).mp apart.pairwise,
    fun place member => apart.outside place (same.mem_iff.mpr member)⟩

theorem Apart.sublist (apart : Apart abi head entries)
    (fewer : others.Sublist entries) : Apart abi head others :=
  ⟨apart.pairwise.sublist fewer, fun place member => apart.outside place (fewer.subset member)⟩

theorem Apart.ne_or {first second : Nat} (apart : Apart abi head entries) (member : first ∈ entries)
    (otherMember : second ∈ entries) : first = second ∨
      first + entrySize abi ≤ second ∨ second + entrySize abi ≤ first := by
  by_cases same : first = second
  · exact Or.inl same
  · have symmetric : Std.Symm fun first second : Nat =>
        first + entrySize abi ≤ second ∨ second + entrySize abi ≤ first :=
      ⟨fun _ _ either => either.symm⟩
    exact Or.inr (apart.pairwise.forall member otherMember same)

theorem Apart.dev_ne {place link : Nat} (apart : Apart abi head entries) (member : place ∈ entries)
    (linkMember : link ∈ head :: entries.map (node abi)) :
    place ≠ link ∧ place ≠ link + abi.wordSize := by
  have size := abi.wordSize_pos
  have outside := (apart.outside place member).2
  unfold entrySize at outside
  rcases mem_cons.mp linkMember with rfl | inside
  · omega
  · obtain ⟨other, otherMember, rfl⟩ := mem_map.mp inside
    have different := apart.ne_or member otherMember
    unfold entrySize at different
    unfold node
    omega

theorem Apart.separate (apart : Apart abi head entries) :
    Ring.Separate abi.wordSize (head :: entries.map (node abi)) := by
  have size := abi.wordSize_pos
  constructor
  · refine nodup_cons.mpr ⟨fun inside => ?_, ?_⟩
    · obtain ⟨place, member, same⟩ := mem_map.mp inside
      have outside := (apart.outside place member).2
      unfold entrySize at outside
      unfold node at same
      omega
    · refine List.Nodup.map (fun first second same => add_right_cancel same) ?_
      refine apart.pairwise.imp fun either same => ?_
      unfold entrySize at either
      omega
  · intro first firstMember second secondMember
    rcases mem_cons.mp firstMember with rfl | firstInside <;>
      rcases mem_cons.mp secondMember with rfl | secondInside
    · omega
    · obtain ⟨place, member, rfl⟩ := mem_map.mp secondInside
      have outside := (apart.outside place member).2
      unfold entrySize at outside
      unfold node
      omega
    · obtain ⟨place, member, rfl⟩ := mem_map.mp firstInside
      have outside := (apart.outside place member).2
      unfold entrySize at outside
      unfold node
      omega
    · obtain ⟨place, member, rfl⟩ := mem_map.mp firstInside
      obtain ⟨other, otherMember, rfl⟩ := mem_map.mp secondInside
      have different := apart.ne_or member otherMember
      unfold entrySize at different
      unfold node
      omega

theorem Represents.congr (represents : Represents abi head mem entries)
    (links : ∀ link ∈ head :: entries.map (node abi),
      after link = mem link ∧ after (link + abi.wordSize) = mem (link + abi.wordSize)) :
    Represents abi head after entries :=
  ⟨represents.ring.congr links, represents.apart⟩

/-! ### The calls -/

/-- `__add` puts the new entry in front of the first one of a greater key. -/
theorem devAdd_spec {fuel dev this : Nat} (represents : Represents abi head mem entries)
    (fresh : Apart abi head (this :: entries)) (enough : entries.length < fuel) :
    ∃ front back after, entries = front ++ back ∧
      (∀ place ∈ front, key (devices (mem place)) ≤ key (devices dev)) ∧
      (∀ place ∈ back.head?, key (devices dev) < key (devices (mem place))) ∧
      devAdd abi head devices fuel dev (some this) mem = some (0, after) ∧
      Represents abi head after (front ++ this :: back) ∧
      after this = dev ∧ ∀ place ∈ entries, after place = mem place := by
  have different : ∀ place ∈ entries, place ≠ this := by
    intro place member same
    have either := (pairwise_cons.mp fresh.pairwise).1 place member
    have size := abi.wordSize_pos
    unfold entrySize at either
    omega
  have dev_ne : ∀ place ∈ this :: entries, ∀ link ∈ head :: entries.map (node abi),
      place ≠ link ∧ place ≠ link + abi.wordSize := fun place member link linkMember =>
    fresh.dev_ne member ((sublist_cons_self _ _).cons_cons head |>.subset linkMember)
  have written : Represents abi head (Function.update mem this dev) entries :=
    represents.congr fun link member => by
      obtain ⟨first, second⟩ := dev_ne this mem_cons_self link member
      exact ⟨update_of_ne first.symm _ _, update_of_ne second.symm _ _⟩
  obtain ⟨frontNodes, backNodes, whole, passed, stops, found⟩ := written.ring.seek
    (fun tmp => decide (0 < cmp (devices (Function.update mem this dev (entry abi tmp)))
      (devices (Function.update mem this dev this)))) (by rwa [length_map])
  obtain ⟨front, back, rfl, rfl, rfl⟩ := map_eq_append_iff.mp whole
  have ring := written.ring
  rw [map_append] at ring
  have back_eq := ring.backward
  have inserted := ring.insert (by
    rw [← map_append]
    exact fresh.separate)
  obtain ⟨lastMember, firstMember⟩ :=
    Ring.neighbours_mem head (front.map (node abi)) (back.map (node abi))
  rw [← map_append] at lastMember firstMember
  obtain ⟨after, made⟩ : ∃ after, Ring.insert abi.wordSize (Function.update mem this dev)
    (node abi this) ((front.map (node abi)).getLast?.getD head)
    ((back.map (node abi)).head?.getD head) = after := ⟨_, rfl⟩
  have device : ∀ place ∈ this :: (front ++ back),
      after place = Function.update mem this dev place := by
    intro place member
    obtain ⟨first, -⟩ := dev_ne place member _ lastMember
    obtain ⟨-, second⟩ := dev_ne place member _ firstMember
    obtain ⟨third, fourth⟩ := fresh.dev_ne member
      (show node abi this ∈ head :: (this :: (front ++ back)).map (node abi) by simp)
    rw [← made, Ring.insert_apply, if_neg first, if_neg fourth, if_neg third, if_neg second]
  refine ⟨front, back, after, rfl, fun place member => ?_, fun place member => ?_, ?_, ⟨?_, ?_⟩,
    ?_, fun place member => ?_⟩
  · have stays := passed (node abi place) (mem_map_of_mem member)
    rw [entry_node, update_self, update_of_ne
      (different place (mem_append_left _ member)), decide_eq_false_iff_not, cmp_pos] at stays
    exact not_lt.mp stays
  · have stays := stops (node abi place) (by
      rw [List.head?_map]
      exact mem_map_of_mem _ member)
    rw [entry_node, update_self, update_of_ne
      (different place (mem_append_right _ (mem_of_mem_head? member))),
      decide_eq_true_eq, cmp_pos] at stays
    exact stays
  · rw [devAdd]
    simp only [found, FreeList.listAddBefore, back_eq, made]
  · rw [map_append, map_cons]
    rw [← made]
    exact inserted
  · exact fresh.perm perm_middle.symm
  · rw [device this mem_cons_self, update_self]
  · rw [device place (mem_cons_of_mem _ member), update_of_ne (different place member)]

/-- The loop of `__remove` over the entries that are still to come. -/
theorem removeScan_spec {dev fuel start this : Nat} (rest : List Nat)
    (leads : Ring.Leads abi.wordSize mem start (rest.map (node abi) ++ [head]) head)
    (absent : head ∉ rest.map (node abi)) (enough : rest.length < fuel) :
    ((∃ place ∈ rest, (devices (mem place)).bus = dev) ∧
      removeScan abi head devices dev mem fuel (mem start) this = some none) ∨
    (∀ place ∈ rest, (devices (mem place)).bus ≠ dev) ∧
      ∃ found, removeScan abi head devices dev mem fuel (mem start) this = some (some found) ∧
        (found = this ∧ (∀ place ∈ rest, mem place ≠ dev) ∨ found ∈ rest ∧ mem found = dev) := by
  induction rest generalizing start fuel this with
  | nil =>
    obtain ⟨fuel, rfl⟩ := Nat.exists_eq_add_of_le' (one_le_of_lt enough)
    refine Or.inr ⟨nofun, this, ?_, Or.inl ⟨rfl, nofun⟩⟩
    rw [leads.1.1, removeScan, if_pos rfl]
  | cons place rest inductionHypothesis =>
    obtain ⟨fuel, rfl⟩ := Nat.exists_eq_add_of_le' (one_le_of_lt enough)
    obtain ⟨⟨toPlace, -⟩, later⟩ := leads
    have notHead : node abi place ≠ head := fun same => absent (same ▸ mem_cons_self)
    rw [toPlace, removeScan, if_neg notHead, entry_node]
    by_cases connected : (devices (mem place)).bus = dev
    · exact Or.inl ⟨⟨place, mem_cons_self, connected⟩, if_pos connected⟩
    rw [if_neg connected]
    rcases @inductionHypothesis _ (node abi place) (if mem place = dev then
      place else this) later
      (fun member => absent (mem_cons_of_mem _ member)) (lt_of_succ_lt_succ enough) with
      ⟨⟨other, member, bus⟩, scan⟩ | ⟨none, found, scan, which⟩
    · exact Or.inl ⟨⟨other, mem_cons_of_mem _ member, bus⟩, scan⟩
    · refine Or.inr ⟨forall_mem_cons.mpr ⟨connected, none⟩, found, scan, ?_⟩
      rcases which with ⟨rfl, others⟩ | ⟨member, here⟩
      · by_cases here : mem place = dev
        · rw [if_pos here]
          exact Or.inr ⟨mem_cons_self, here⟩
        · rw [if_neg here]
          exact Or.inl ⟨rfl, forall_mem_cons.mpr ⟨here, others⟩⟩
      · exact Or.inr ⟨mem_cons_of_mem _ member, here⟩

/-- `__remove` fails for a device that is the bus of a listed one and for a device that is not
listed; otherwise it takes out one entry of the device. -/
theorem devRemove_spec {fuel dev : Nat} (represents : Represents abi head mem entries)
    (enough : entries.length < fuel) :
    ((∃ place ∈ entries, (devices (mem place)).bus = dev) ∨ ∀ place ∈ entries, mem place ≠ dev) ∧
      devRemove abi head devices fuel dev mem = some (eof, none, mem) ∨
    (∀ place ∈ entries, (devices (mem place)).bus ≠ dev) ∧
      ∃ front this back after, entries = front ++ this :: back ∧ mem this = dev ∧
        devRemove abi head devices fuel dev mem = some (0, some this, after) ∧
        Represents abi head after (front ++ back) ∧
        ∀ place ∈ front ++ back, after place = mem place := by
  have absent := (nodup_cons.mp represents.ring.separate.nodup).1
  unfold devRemove
  rcases @removeScan_spec _ _ _ _ _ _ _ 0 entries represents.ring.leads absent
    enough with ⟨connected, scan⟩ | ⟨free, found, scan, which⟩
  · exact Or.inl ⟨Or.inl connected, by simp only [scan]⟩
  simp only [scan]
  rcases which with ⟨rfl, others⟩ | ⟨member, here⟩
  · exact Or.inl ⟨Or.inr others, rfl⟩
  have nonzero := (represents.apart.outside found member).1
  obtain ⟨front, back, rfl⟩ := append_of_mem member
  have ring := represents.ring
  rw [map_append, map_cons] at ring
  have fewer : (front ++ back).Sublist (front ++ found :: back) :=
    (sublist_cons_self found back).append_left front
  refine Or.inr ⟨free, front, found, back, _, rfl, here, if_pos (by omega), ⟨?_, ?_⟩, ?_⟩
  · rw [map_append]
    exact ring.remove
  · exact represents.apart.sublist fewer
  · intro place placeMember
    have forward := @Ring.IsRing.forward _ _ _ (front.map (node abi) ++ [node abi found])
      _ (by rwa [append_assoc, singleton_append])
    have backward := ring.backward
    rw [List.getLast?_concat, getD_some] at forward
    rw [List.head?_cons, getD_some] at backward
    obtain ⟨lastMember, firstMember⟩ :=
      Ring.neighbours_mem head (front.map (node abi)) (back.map (node abi))
    rw [← map_append] at lastMember firstMember
    have smaller := represents.apart.sublist fewer
    obtain ⟨first, -⟩ := smaller.dev_ne placeMember lastMember
    obtain ⟨-, second⟩ := smaller.dev_ne placeMember firstMember
    rw [FreeList.listDel, Ring.remove_apply, forward, backward, if_neg first, if_neg second]

/-- The lookups return the first device of the list that they look for. -/
theorem search_spec (represents : Represents abi head mem entries) (enough : entries.length < fuel)
    (wanted : Device → Bool) :
    search abi head devices fuel wanted mem =
      some (((entries.map mem).find? fun dev => wanted (devices dev)).getD 0) := by
  obtain ⟨frontNodes, backNodes, whole, passed, stops, found⟩ := represents.ring.seek
    (fun tmp => wanted (devices (mem (entry abi tmp)))) (by rwa [length_map])
  obtain ⟨front, back, rfl, rfl, rfl⟩ := map_eq_append_iff.mp whole
  have none : (front.map mem).find? (fun dev => wanted (devices dev)) = none := by
    rw [List.find?_eq_none]
    intro dev member
    obtain ⟨place, placeMember, rfl⟩ := mem_map.mp member
    have stays := passed (node abi place) (mem_map_of_mem placeMember)
    rw [entry_node] at stays
    simp [stays]
  rw [search]
  simp only [found]
  rw [map_append, List.find?_append, none, none_or]
  rcases back with _ | ⟨place, rest⟩
  · simp
  · have here := stops (node abi place) rfl
    rw [entry_node] at here
    have notHead : node abi place ≠ head := fun same =>
      (nodup_cons.mp represents.ring.separate.nodup).1 (same ▸ by simp)
    simp [here, notHead]

/-- A loop over the list comes by the devices of the entries. -/
theorem contents_spec (represents : Represents abi head mem entries)
    (enough : entries.length < fuel) :
    contents abi head mem fuel (mem head) = some (entries.map mem) := by
  have general : ∀ (rest : List Nat) (start fuel : Nat),
      Ring.Leads abi.wordSize mem start (rest.map (node abi) ++ [head]) head →
      head ∉ rest.map (node abi) → rest.length < fuel →
      contents abi head mem fuel (mem start) = some (rest.map mem) := by
    intro rest
    induction rest with
    | nil =>
      rintro start (_ | fuel) leads - enough
      · cases enough
      · rw [leads.1.1, contents, if_pos rfl]
        rfl
    | cons place rest inductionHypothesis =>
      rintro start (_ | fuel) leads absent enough
      · cases enough
      obtain ⟨⟨toPlace, -⟩, later⟩ := leads
      have notHead : node abi place ≠ head := fun same => absent (same ▸ mem_cons_self)
      rw [toPlace, contents, if_neg notHead, inductionHypothesis (node abi place) fuel later
        (fun member => absent (mem_cons_of_mem _ member)) (lt_of_succ_lt_succ enough),
        entry_node]
      rfl
  exact general entries head fuel represents.ring.leads
    (nodup_cons.mp represents.ring.separate.nodup).1 enough

end DeviceList

end AIMv6
