import I8086.Proofs.Groups

/-!
# Regions that do not leave their segment

A region that ends within the segment it starts in has a byte for every address from its first to
its last one, with the start of the image following its end.  The instructions of such a region lie
one behind the other in the image, too, and not only along the cursor.

* `Instruction.Contiguous` says that instructions lie one behind the other, and
  `Decoder.contiguous_after` that the instructions of a region do.
* `Instruction.Contiguous.flatMap_read` puts their bytes together.
-/

set_option autoImplicit false

namespace I8086

/-! ## Places -/

theorem Address.wrap_toNat_add (a n : Nat) : wrap ((wrap a).toNat + n) = wrap (a + n) := by
  refine BitVec.eq_of_toNat_eq ?_
  rw [toNat_wrap, toNat_wrap, toNat_wrap, Nat.mod_add_mod]

/-- The physical address of a cursor before it wraps. -/
def Cursor.number (c : Cursor) : Nat := c.segment.toNat * 16 + c.offset.toNat

theorem Cursor.address_eq (c : Cursor) : c.address = .wrap c.number := by
  rw [address, addressAt, Address.ofSegment, UInt16.add_zero, number]

theorem Cursor.number_advance {c : Cursor} {n : UInt32} (h : c.offset.toNat + n.toNat < 65536) :
    (c.advance n).number = c.number + n.toNat := by
  have hoffset : (c.offset + n.toUInt16).toNat = c.offset.toNat + n.toNat := by
    rw [UInt16.toNat_add, UInt32.toNat_toUInt16]
    omega
  rw [number, number, advance, hoffset, Nat.add_assoc]

namespace Image

@[simp] theorem length_getRange (m : Image) (a : Address) (count : Nat) :
    (m.getRange a count).length = count := by
  rw [getRange, List.length_map, List.length_range]

theorem getRange_add (image : Image) (a m n : Nat) :
    image.getRange (.wrap a) (m + n) =
      image.getRange (.wrap a) m ++ image.getRange (.wrap (a + m)) n := by
  rw [getRange, List.range_add, List.map_append, List.map_map]
  refine congrArg (_ ++ ·) (List.map_congr_left fun k _ => congrArg image.get ?_)
  simp only [Address.wrap_eq_ofNat, ← BitVec.ofNat_add, Nat.add_assoc]

end Image

/-! ## Instructions one behind the other -/

namespace Instruction

/-- The number of bytes of some instructions. -/
def total (instructions : List Instruction) : Nat :=
  (instructions.map fun i => i.size.toNat).sum

@[simp] theorem total_append (is js : List Instruction) :
    total (is ++ js) = total is + total js := by
  rw [total, List.map_append, List.sum_append]
  rfl

@[simp] theorem total_cons (i : Instruction) (is : List Instruction) :
    total (i :: is) = i.size.toNat + total is := by
  rw [total, List.map_cons, List.sum_cons]
  rfl

@[simp] theorem total_nil : total [] = 0 := rfl

/-- The instructions have some bytes each, and lie one behind the other from number `a` on. -/
def Contiguous : Nat → List Instruction → Prop
  | _, [] => True
  | a, i :: rest =>
    i.address = (Address.wrap a).toWord ∧ 0 < i.size.toNat ∧ Contiguous (a + i.size.toNat) rest

theorem contiguous_append {is js : List Instruction} {a : Nat} :
    Contiguous a (is ++ js) ↔ Contiguous a is ∧ Contiguous (a + total is) js := by
  induction is generalizing a with
  | nil => simp [Contiguous]
  | cons i is ih =>
    rw [List.cons_append, Contiguous, Contiguous, ih, total_cons, Nat.add_assoc]
    tauto

/-- The bytes of instructions one behind the other are the bytes of the image. -/
theorem Contiguous.flatMap_read {is : List Instruction} {a : Nat} (h : Contiguous a is)
    (image : Image) :
    is.flatMap (fun i => image.read i.address i.size) = image.getRange (.wrap a) (total is) := by
  induction is generalizing a with
  | nil => rfl
  | cons i is ih =>
    obtain ⟨haddress, -, hrest⟩ := h
    rw [List.flatMap_cons, ih hrest, Image.read, haddress, Address.ofWord_toWord, total_cons,
      Image.getRange_add]

section Unwrapped

variable {is : List Instruction} {a : Nat}

/-- Up to the end of the image, addresses are numbers. -/
theorem Contiguous.bounds (h : Contiguous a is) (hend : a + total is ≤ imageSize) :
    ∀ i ∈ is, a ≤ i.address.toNat ∧ i.address.toNat < a + total is := by
  induction is generalizing a with
  | nil => exact fun i hi => absurd hi List.not_mem_nil
  | cons j is ih =>
    obtain ⟨haddress, hsize, hrest⟩ := h
    rw [total_cons] at hend ⊢
    intro i hi
    rcases List.mem_cons.1 hi with rfl | hi
    · rw [haddress, Address.toNat_toWord, Address.toNat_wrap, Nat.mod_eq_of_lt (by omega)]
      omega
    · have := ih hrest (by omega) i hi
      omega

theorem Contiguous.pairwise_lt (h : Contiguous a is) (hend : a + total is ≤ imageSize) :
    is.Pairwise fun i j => i.address.toNat < j.address.toNat := by
  induction is generalizing a with
  | nil => exact .nil
  | cons i is ih =>
    obtain ⟨haddress, hsize, hrest⟩ := h
    rw [total_cons] at hend
    refine .cons (fun j hj => ?_) (ih hrest (by omega))
    have := (hrest.bounds (by omega) j hj).1
    rw [haddress, Address.toNat_toWord, Address.toNat_wrap, Nat.mod_eq_of_lt (by omega)]
    omega

/-- No two groups have the same address. -/
theorem Contiguous.nodup_starts (h : Contiguous a is) (hend : a + total is ≤ imageSize) :
    ((groups is).filterMap start?).Nodup := by
  refine (sublist_starts is).nodup (List.pairwise_map.2 ?_)
  refine (h.pairwise_lt hend).imp fun hlt heq => ?_
  rw [heq] at hlt
  exact Nat.lt_irrefl _ hlt

end Unwrapped

end Instruction

/-! ## Decoders -/

namespace Decoder

variable {image : Image} {start : Cursor} {count : UInt32}

/-- The instructions of a region that does not leave its segment lie one behind the other. -/
theorem contiguous_after (h : start.offset.toNat + count.toNat ≤ 65536) (calls : List Call) :
    Instruction.Contiguous start.number
      ((new image start count).after calls).decoded.toList := by
  refine (preserved_by_calls (P := fun d => d.Tracks start count ∧
    Instruction.Contiguous start.number d.decoded.toList) ?_
    (fun _ image hd => ⟨hd.1.setImage image, hd.2⟩) ⟨.new image start count, trivial⟩ calls).2
  rintro d ⟨htracks, hd⟩
  refine ⟨htracks.next, ?_⟩
  rcases d.next_cases with ⟨e, he⟩ | ⟨x, hp, hx, hnext⟩
  · rw [he]
    exact hd
  · have hlt : d.pos.toNat < count.toNat := by
      rw [← UInt32.lt_iff_toNat_lt, ← htracks.count_eq]
      exact hp
    have htotal : Instruction.total d.decoded.toList = d.pos.toNat := htracks.sum_sizes
    rw [hnext, take, Array.toList_push, Instruction.contiguous_append, htotal]
    refine ⟨hd, ?_, (size_of_decodeWithin hx).1, trivial⟩
    rw [address_of_decodeWithin hx, htracks.cursor_eq, Cursor.address_eq,
      Cursor.number_advance (by omega)]

end Decoder
end I8086
