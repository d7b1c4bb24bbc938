import Colza.ClientHandles

/-!
# The buffer of addresses between the ranks

Rank 0 writes the address of every member to its slot with `strcpy`, in increasing order,
and the other ranks read one C string from every slot. An address that fills its slot runs
into the next one, which is then written over.
-/
namespace AddressSlots

open ClientHandles

/-- `group_size*256`, which both sides compute as an `int`. -/
def intSize (groupSize : ℕ) : ℤ := Int.bmod (groupSize * slotSize) (2 ^ 32)

/-- The bytes of `packed_addresses`: no vector has a negative size. -/
def allocated (groupSize : ℕ) : Option ℕ :=
  if intSize groupSize < 0 then none else some (intSize groupSize).toNat

/-- The writes of rank 0, from slot `i` on. -/
def packFrom (packed : List UInt8) (i : ℕ) : List Address → List UInt8
  | [] => packed
  | addr :: rest => packFrom (strcpy packed (i * slotSize) addr) (i + 1) rest

/-- Every write, with its terminator, ends inside the buffer. -/
def WritesWithin (size i : ℕ) : List Address → Prop
  | [] => True
  | addr :: rest => i * slotSize + addr.length + 1 ≤ size ∧ WritesWithin size (i + 1) rest

instance WritesWithin.decidable (size : ℕ) :
    (i : ℕ) → (addresses : List Address) → Decidable (WritesWithin size i addresses)
  | _, [] => inferInstanceAs (Decidable True)
  | i, _ :: rest =>
    have : Decidable (WritesWithin size (i + 1) rest) := WritesWithin.decidable size (i + 1) rest
    inferInstanceAs (Decidable (_ ∧ _))

def readSlot (packed : List UInt8) (i : ℕ) : Address := cString (packed.drop (i * slotSize))

/-- What another rank reads from `n` slots, from slot `i` on. -/
def readFrom (packed : List UInt8) (i n : ℕ) : List Address := (List.range' i n).map (readSlot packed)

/-- The other ranks read what rank 0 wrote, and no write leaves the buffer. -/
def RoundTrips (addresses : List Address) : Prop :=
  ∃ size, allocated addresses.length = some size ∧ WritesWithin size 0 addresses ∧
    readFrom (packFrom (List.replicate size 0) 0 addresses) 0 addresses.length = addresses

/-- Every address leaves its slot room for the terminator, or what does not go in the slot
is the next address. -/
def FitSlots : List Address → Prop
  | [] => True
  | [addr] => addr.length < slotSize
  | addr :: next :: rest =>
    (addr.length < slotSize ∨ addr.drop slotSize = next) ∧ FitSlots (next :: rest)

instance FitSlots.decidable : (addresses : List Address) → Decidable (FitSlots addresses)
  | [] => inferInstanceAs (Decidable True)
  | [_] => inferInstanceAs (Decidable (_ < _))
  | _ :: next :: rest =>
    have : Decidable (FitSlots (next :: rest)) := FitSlots.decidable (next :: rest)
    inferInstanceAs (Decidable ((_ ∨ _) ∧ _))

/-! ## The two loops of the source -/

theorem packAll_eq (packed : List UInt8) (i : ℕ) (added : List PipelineHandle) :
    packAll packed i added = packFrom packed i (added.map PipelineHandle.address) := by
  induction added generalizing packed i with
  | nil => rfl
  | cons p added ih => exact ih _ _

theorem unpackPipelines_addresses {env : ClientEnv} {packed : List UInt8} {providerId : UInt16}
    {name : String} {size : ℕ} {pipelines : List PipelineHandle}
    (h : unpackPipelines env packed providerId name (List.range size) = .ok pipelines) :
    pipelines.map PipelineHandle.address = readFrom packed 0 size := by
  rw [unpackPipelines_ok h, List.map_map, List.range_eq_range']
  rfl

theorem intSize_def (groupSize : ℕ) :
    intSize groupSize =
      if (groupSize * 256 : ℤ) % 4294967296 < 2147483648 then (groupSize * 256 : ℤ) % 4294967296
      else (groupSize * 256 : ℤ) % 4294967296 - 4294967296 := Int.bmod_def _ _

/-- In a group that the `int` does not limit, the buffer is the one of the source. -/
theorem allocated_eq {groupSize : ℕ} (h : groupSize < 2 ^ 23) :
    allocated groupSize = some (groupSize * slotSize) := by
  have hsize : intSize groupSize = groupSize * 256 := by
    rw [intSize_def]
    omega
  unfold allocated
  rw [hsize, if_neg (by omega)]
  exact congrArg some (by change _ = groupSize * 256; omega)

/-- A buffer that a larger group asks for is shorter than its slots. -/
theorem allocated_short {groupSize size : ℕ} (h : allocated groupSize = some size)
    (hlarge : 2 ^ 23 ≤ groupSize) : size + 2 ^ 31 ≤ groupSize * slotSize := by
  have hsize := intSize_def groupSize
  unfold allocated at h
  change size + 2 ^ 31 ≤ groupSize * 256
  split at h
  · cases h
  · have hs := Option.some.inj h
    omega

/-! ## One slot -/

theorem next_slot (i : ℕ) : (i + 1) * slotSize = i * slotSize + slotSize := Nat.succ_mul ..

theorem slots_cons (i : ℕ) (addr : Address) (rest : List Address) :
    i + (addr :: rest).length = i + 1 + rest.length := by
  rw [List.length_cons]
  omega

section Slot

variable {packed : List UInt8} {i : ℕ} {addr : Address}

/-- The writes from slot `i` on leave the slots before it. -/
theorem packFrom_take (packed : List UInt8) (i : ℕ) (addresses : List Address)
    (hnul : ∀ addr ∈ addresses, 0 ∉ addr) (h : WritesWithin packed.length i addresses) {k : ℕ}
    (hk : k ≤ i * slotSize) : (packFrom packed i addresses).take k = packed.take k := by
  induction addresses generalizing packed i with
  | nil => rfl
  | cons addr rest ih =>
    have hw := h.1
    have hlen := strcpy_length (by omega : i * slotSize ≤ packed.length) addr
    have hrest : ∀ a ∈ rest, 0 ∉ a := fun a ha => hnul a (List.mem_cons_of_mem _ ha)
    rw [packFrom, ih _ _ hrest (hlen ▸ h.2) (hk.trans (by rw [Nat.succ_mul]; omega)),
      strcpy_eq (hnul addr (List.mem_cons_self ..)) (by omega),
      List.take_append_of_le_length (by rw [List.length_take]; omega), List.take_take,
      Nat.min_eq_left hk]

/-- A slot without a terminator: the string goes on in the next slot. -/
theorem readSlot_full {text : Address} (h0 : 0 ∉ text)
    (h : (packed.drop (i * slotSize)).take slotSize = text) :
    readSlot packed i = text ++ readSlot packed (i + 1) := by
  have hsplit : packed.drop (i * slotSize) = text ++ packed.drop ((i + 1) * slotSize) := by
    rw [← List.take_append_drop slotSize (packed.drop (i * slotSize)), h, List.drop_drop,
      Nat.succ_mul]
  unfold readSlot cString
  rw [hsplit, List.takeWhile_append_of_pos]
  intro a ha
  have hne : a ≠ 0 := fun h1 => h0 (h1 ▸ ha)
  simpa using hne

end Slot

/-! ## The whole list -/

/-- What is read from a slot after all writes: the address, or its first part and then what is
read from the next slot. -/
theorem readSlot_packFrom {packed : List UInt8} {i : ℕ} {addr : Address} {rest : List Address}
    (hnul : ∀ a ∈ addr :: rest, 0 ∉ a) (h : WritesWithin packed.length i (addr :: rest)) :
    readSlot (packFrom packed i (addr :: rest)) i =
      if addr.length < slotSize then addr
      else addr.take slotSize ++ readSlot (packFrom packed i (addr :: rest)) (i + 1) := by
  have h0 := hnul addr (List.mem_cons_self ..)
  have hw := h.1
  have hstart : i * slotSize ≤ packed.length := by omega
  have hmul := next_slot i
  have hfirst : strcpy packed (i * slotSize) addr = packed.take (i * slotSize) ++
      (addr ++ 0 :: packed.drop (i * slotSize + addr.length + 1)) := strcpy_eq h0 (by omega)
  have hkeep : (packFrom packed i (addr :: rest)).take ((i + 1) * slotSize) =
      (strcpy packed (i * slotSize) addr).take ((i + 1) * slotSize) := by
    refine packFrom_take _ _ rest (fun a ha => hnul a (List.mem_cons_of_mem _ ha)) ?_ le_rfl
    rw [strcpy_length hstart]
    exact h.2
  -- the bytes of the slot after all writes
  have hslot : ((packFrom packed i (addr :: rest)).drop (i * slotSize)).take slotSize =
      (addr ++ 0 :: packed.drop (i * slotSize + addr.length + 1)).take slotSize := by
    have hsub : (i + 1) * slotSize - i * slotSize = slotSize := by omega
    have hdrop := congrArg (List.drop (i * slotSize)) hkeep
    rw [List.drop_take, List.drop_take, hsub, hfirst,
      List.drop_left' (by rw [List.length_take]; omega)] at hdrop
    exact hdrop
  split
  · next hshort =>
    refine HasString.cString_drop ?_ h0
    refine ⟨((packFrom packed i (addr :: rest)).drop (i * slotSize)).drop (addr.length + 1), ?_⟩
    have hhead := congrArg (List.take (addr.length + 1)) hslot
    have htext (tail : List UInt8) : (addr ++ 0 :: tail).take (addr.length + 1) = addr ++ [0] := by
      rw [List.take_append, List.take_of_length_le (Nat.le_succ _), Nat.add_sub_cancel_left]
      rfl
    rw [List.take_take, List.take_take, Nat.min_eq_left hshort, htext] at hhead
    conv_lhs => rw [← List.take_append_drop (addr.length + 1) (List.drop _ _), hhead]
    rw [List.append_assoc]
    rfl
  · next hlong =>
    refine readSlot_full (fun hm => h0 (List.mem_of_mem_take hm)) ?_
    rw [hslot, List.take_append_of_le_length (by omega)]

theorem WritesWithin.start_le {size i : ℕ} {addresses : List Address}
    (h : WritesWithin size i addresses) {k : ℕ} (hk : k < addresses.length) :
    (i + k) * slotSize ≤ size := by
  induction addresses generalizing i k with
  | nil => cases hk
  | cons addr rest ih =>
    cases k with
    | zero =>
      have hfirst := h.1
      rw [Nat.add_zero]
      omega
    | succ k =>
      have hlast := ih h.2 (Nat.lt_of_succ_lt_succ hk)
      rwa [Nat.add_right_comm] at hlast

theorem FitSlots.within {addresses : List Address} (h : FitSlots addresses) (i : ℕ) :
    WritesWithin ((i + addresses.length) * slotSize) i addresses := by
  induction addresses generalizing i with
  | nil => trivial
  | cons addr rest ih =>
    have hmul := next_slot i
    have hcount := slots_cons i addr rest
    rw [hcount]
    cases rest with
    | nil =>
      have haddr : addr.length < slotSize := h
      refine ⟨?_, trivial⟩
      simp only [List.length_nil, Nat.add_zero]
      omega
    | cons next rest =>
      have hrest := ih h.2 (i + 1)
      refine ⟨?_, hrest⟩
      have hnext := hrest.1
      rcases h.1 with hshort | hlong
      · omega
      · have hlen := congrArg List.length hlong
        rw [List.length_drop] at hlen
        omega

/-- Where all writes are inside the buffer, the addresses are read back exactly when they fit
their slots. -/
theorem readFrom_packFrom_iff {packed : List UInt8} {i : ℕ} {addresses : List Address}
    (hnul : ∀ a ∈ addresses, 0 ∉ a) (hw : WritesWithin packed.length i addresses)
    (hlen : packed.length = (i + addresses.length) * slotSize) :
    readFrom (packFrom packed i addresses) i addresses.length = addresses ↔
      FitSlots addresses := by
  induction addresses generalizing packed i with
  | nil => exact iff_of_true rfl trivial
  | cons addr rest ih =>
    have hmul := next_slot i
    have hcount := slots_cons i addr rest
    have hstart := hw.start_le (k := 0) (Nat.succ_pos _)
    rw [Nat.add_zero] at hstart
    have hstrcpy := strcpy_length hstart addr
    have ih := @ih (strcpy packed (i * slotSize) addr) (i + 1)
      (fun a ha => hnul a (List.mem_cons_of_mem _ ha)) (hstrcpy ▸ hw.2)
      (by rw [hstrcpy, hlen, hcount])
    have hread := readSlot_packFrom hnul hw
    rw [List.length_cons, readFrom, List.range'_succ, List.map_cons, List.cons.injEq]
    change _ ∧ readFrom (packFrom packed i (addr :: rest)) (i + 1) rest.length = rest ↔ _
    cases rest with
    | nil =>
      have hfirst := hw.1
      have hshort : addr.length < slotSize := by
        simp only [hlen, hcount, List.length_nil, Nat.add_zero] at hfirst
        omega
      rw [if_pos hshort] at hread
      exact iff_of_true ⟨hread, rfl⟩ hshort
    | cons next rest =>
      -- the next slot reads as the next address
      have hnext (h : readFrom (packFrom packed i (addr :: next :: rest)) (i + 1)
          (next :: rest).length = next :: rest) :
          readSlot (packFrom packed i (addr :: next :: rest)) (i + 1) = next :=
        (List.cons.inj h).1
      have hslot (h : readFrom (packFrom packed i (addr :: next :: rest)) (i + 1)
          (next :: rest).length = next :: rest) :
          readSlot (packFrom packed i (addr :: next :: rest)) i = addr ↔
            addr.length < slotSize ∨ addr.drop slotSize = next := by
        rw [hread, hnext h]
        split
        · next hshort => exact iff_of_true rfl (Or.inl hshort)
        · next hlong =>
          conv_lhs => rhs; rw [← List.take_append_drop slotSize addr]
          rw [List.append_cancel_left_eq, or_iff_right hlong, eq_comm]
      exact ⟨fun h => ⟨(hslot h.2).mp h.1, ih.mp h.2⟩,
        fun h => ⟨(hslot (ih.mpr h.2)).mpr h.1, ih.mpr h.2⟩⟩

/-- The limit of the `int` and the slots. -/
theorem addresses_round_trip_iff {addresses : List Address} (hnul : ∀ a ∈ addresses, 0 ∉ a) :
    RoundTrips addresses ↔ addresses.length < 2 ^ 23 ∧ FitSlots addresses := by
  have hread (hw : WritesWithin (addresses.length * slotSize) 0 addresses) :=
    @readFrom_packFrom_iff (List.replicate (addresses.length * slotSize) 0) 0 addresses hnul
      (by rwa [List.length_replicate]) (by rw [List.length_replicate, Nat.zero_add])
  constructor
  · rintro ⟨size, hsize, hw, hr⟩
    have hlt : addresses.length < 2 ^ 23 := by
      by_contra hge
      have hshort := allocated_short hsize (Nat.le_of_not_lt hge)
      have hlast := hw.start_le (k := addresses.length - 1) (by omega)
      rw [Nat.zero_add, Nat.sub_mul] at hlast
      simp only [slotSize] at hshort hlast
      omega
    obtain rfl := Option.some.inj ((allocated_eq hlt).symm.trans hsize)
    exact ⟨hlt, (hread hw).mp hr⟩
  · rintro ⟨hlt, hfit⟩
    have hw := hfit.within 0
    rw [Nat.zero_add] at hw
    exact ⟨_, allocated_eq hlt, hw, (hread hw).mpr hfit⟩

/-- A first address that fills its slot and is followed by the end of its own text. -/
theorem long_first_address_round_trips :
    RoundTrips [List.replicate 256 97 ++ [98], [98]] :=
  (addresses_round_trip_iff (by decide)).mpr ⟨by decide, Or.inr (by decide), by decide⟩

/-- The terminator of a single address of 256 bytes is written past the end. -/
theorem full_slot_overruns :
    ¬ ∀ addresses : List Address, (∀ a ∈ addresses, 0 ∉ a) → RoundTrips addresses := by
  intro h
  obtain ⟨size, hsize, hw, -⟩ := h [List.replicate 256 97] (by decide)
  obtain rfl := Option.some.inj ((allocated_eq (by decide : 1 < 2 ^ 23)).symm.trans hsize)
  have hfirst := hw.1
  simp only [slotSize, List.length_replicate] at hfirst
  omega

end AddressSlots
