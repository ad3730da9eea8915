import I8086.Proofs.Contiguous
import I8086.Proofs.Coverage
import Mathlib.Data.List.Forall2

/-!
# Annotations of a listing

An annotated line ends in an address and some bytes.  The listing works out which bytes these are
from two addresses: the one it remembers from the first prefix, and the one behind the instruction.
The bytes were fetched in another way, one by one along a cursor.

* `Listing.AnnotatedLine` is a line of which the text, the address and the bytes can be told apart,
  and `Listing.AnnotatedLine.Shows` says which group of instructions it stands for.
* `Listing.lines_annotated` finds the lines of a region, and the lemmas behind it say what they have
  in common with the image.
* `Image.getRange_eq_stretch` says that the two ways lead to the same bytes.
-/

set_option autoImplicit false

namespace I8086

open Instruction Text

/-! ## Bytes -/

namespace Image

/-- Bytes along a cursor that does not reach the end of its segment. -/
theorem getRange_eq_stretch (image : Image) {start : Cursor} {count : Nat}
    (h : start.offset.toNat + count ≤ 65536) :
    image.getRange start.address count = image.stretch start count := by
  rw [getRange, stretch]
  refine List.map_congr_left fun k hk => congrArg image.get (BitVec.eq_of_toNat_eq ?_)
  have hk := List.mem_range.1 hk
  rw [BitVec.toNat_add, Cursor.address, Cursor.addressAt, Cursor.addressAt, Address.toNat_ofSegment,
    Address.toNat_ofSegment, Address.toNat_wrap, UInt16.toNat_ofNat', UInt16.toNat_zero, imageSize]
  omega

end Image

/-! ## Lines with annotations -/

namespace Listing

/-- A line with the address of its first byte and with its bytes. -/
structure AnnotatedLine where
  text : String
  address : UInt32
  bytes : List UInt8

namespace AnnotatedLine

/-- The line as it is written. -/
def render (line : AnnotatedLine) : String :=
  padRight 36 ' ' line.text ++ " ; 0x" ++ hexPadded 5 line.address.toNat ++ ": " ++
    hexBytes " " line.bytes

/-- The line is that of a run of prefixes and the instruction behind it.  It has the address of the
first of them and the bytes of all of them. -/
structure Shows (image : Image) (group : List Instruction) (line : AnnotatedLine) : Prop where
  text_eq : ∃ ps i, group = ps ++ [i] ∧ (∀ p ∈ ps, p.isPrefix = true) ∧ i.isPrefix = false ∧
    line.text = i.render
  address_eq : start? group = some line.address
  bytes_eq : line.bytes = group.flatMap fun i => image.read i.address i.size

end AnnotatedLine

variable {image : Image}

/-! ## One line -/

/-- The distance between the first byte of a group and the byte behind it, which may lie on the
other side of the end of the image. -/
theorem toNat_between {a n : Nat} {size : UInt32} (h : n + size.toNat < imageSize) :
    (Address.ofWord ((Address.wrap (a + n)).toWord + size - (Address.wrap a).toWord)).toWord.toNat =
      n + size.toNat := by
  rw [Address.toNat_toWord, Address.ofWord, Address.toNat_wrap, UInt32.toNat_sub, UInt32.toNat_add,
    Address.toNat_toWord, Address.toNat_toWord, Address.toNat_wrap, Address.toNat_wrap]
  rw [imageSize] at *
  omega

theorem start?_of_contiguous {group : List Instruction} {a : Nat} (h : Contiguous a group)
    (hne : group ≠ []) : start? group = some (Address.wrap a).toWord := by
  cases group with
  | nil => exact absurd rfl hne
  | cons i rest => exact congrArg some h.1

/-- The line of a group shows it. -/
theorem groupLine?_eq {ps : List Instruction} {i : Instruction} {a : Nat}
    (hc : Contiguous a (ps ++ [i])) (hsmall : total (ps ++ [i]) < imageSize)
    (hi : i.isPrefix = false) (hr : i.isRenderable = true) :
    (new (some image) true).groupLine? (ps ++ [i]) = some (.ok (AnnotatedLine.render
      ⟨i.render, (Address.wrap a).toWord, image.getRange (.wrap a) (total (ps ++ [i]))⟩)) := by
  have haddress : i.address = (Address.wrap (a + total ps)).toWord := (contiguous_append.1 hc).2.1
  have hsize : (Address.ofWord (i.address + i.size - (Address.wrap a).toWord)).toWord.toNat =
      total (ps ++ [i]) := by
    rw [haddress, toNat_between (by simpa using hsmall)]
    simp
  have hline : (new (some image) true).lineFrom (Address.wrap a).toWord i =
      i.text.map (annotated image (Address.wrap a).toWord
        (Address.ofWord (i.address + i.size - (Address.wrap a).toWord)).toWord) := rfl
  rw [groupLine?, body?_append hi, start?_of_contiguous hc (by simp), Option.bind_some,
    Option.map_some, hline, text, if_pos hr, Except.map, annotated, Image.read, hsize,
    Address.ofWord_toWord]
  rfl

/-! ## All lines -/

/-- A region that does not end in a prefix has a line for every group. -/
theorem lines_annotated {instructions : List Instruction} {a : Nat}
    (hc : Contiguous a instructions) (hsmall : total instructions < imageSize)
    (hr : ∀ i ∈ instructions, i.isRenderable = true)
    (hlast : ∀ i ∈ instructions.getLast?, i.isPrefix = false) :
    ∃ lines : List AnnotatedLine,
      (new (some image) true).lines instructions = lines.map (fun line => .ok line.render) ∧
      List.Forall₂ (AnnotatedLine.Shows image) (groups instructions) lines := by
  rw [lines_eq _ rfl]
  induction instructions using groups_induction generalizing a with
  | prefixes ps h =>
    rw [groups_of_prefixes h]
    cases hps : ps.getLast? with
    | some p => exact absurd (h p (List.mem_of_getLast? hps)) (by rw [hlast p hps]; decide)
    | none =>
      rw [if_pos (List.getLast?_eq_none_iff.1 hps)]
      exact ⟨[], rfl, .nil⟩
  | group ps i rest h hi ih =>
    rw [show ps ++ i :: rest = (ps ++ [i]) ++ rest by simp] at hc hsmall hlast
    obtain ⟨hgroup, hrest⟩ := contiguous_append.1 hc
    rw [total_append] at hsmall
    obtain ⟨lines, hlines, hshows⟩ := ih hrest (by omega) (fun j hj => hr j (by simp [hj]))
      (fun j hj => hlast j (List.mem_getLast?_append_of_mem_getLast? hj))
    rw [groups_append_cons h hi, List.filterMap_cons,
      groupLine?_eq hgroup (by omega) hi (hr i (by simp)), hlines]
    refine ⟨_ :: lines, rfl, .cons ⟨⟨ps, i, rfl, h, hi, rfl⟩, ?_, ?_⟩ hshows⟩
    · exact start?_of_contiguous hgroup (by simp)
    · exact (hgroup.flatMap_read image).symm

section Shows

variable {gs : List (List Instruction)} {lines : List AnnotatedLine}

theorem flatMap_bytes (h : List.Forall₂ (AnnotatedLine.Shows image) gs lines) :
    lines.flatMap AnnotatedLine.bytes =
      gs.flatten.flatMap fun i => image.read i.address i.size := by
  induction h with
  | nil => rfl
  | cons hshows _ ih =>
    rw [List.flatMap_cons, List.flatten_cons, List.flatMap_append, ih, hshows.bytes_eq]

/-- The address of a line is as far from the first one as there are bytes in between. -/
theorem address_eq_add (h : List.Forall₂ (AnnotatedLine.Shows image) gs lines) {a : Nat}
    (hc : Contiguous a gs.flatten) {before after : List AnnotatedLine} {line : AnnotatedLine}
    (hlines : lines = before ++ line :: after) :
    line.address = (Address.wrap (a + (before.flatMap AnnotatedLine.bytes).length)).toWord := by
  induction h generalizing a before with
  | nil => exact absurd hlines (by simp)
  | cons hshows _ ih =>
    rw [List.flatten_cons, contiguous_append] at hc
    cases before with
    | nil =>
      cases hlines
      obtain ⟨ps, i, rfl, -⟩ := hshows.text_eq
      exact Option.some.inj (hshows.address_eq.symm.trans (start?_of_contiguous hc.1 (by simp)))
    | cons first before =>
      cases hlines
      rw [ih hc.2 rfl, List.flatMap_cons, List.length_append, hshows.bytes_eq,
        hc.1.flatMap_read, Image.length_getRange, Nat.add_assoc]

end Shows

/-- A listing that is written to the end is that of a region that was decoded to the end. -/
theorem writeAll_eq_none {l : Listing} {d : Decoder} {o o' : Output}
    (h : l.writeAll d o = (none, o')) : d.decodeAll.1 = none ∧
      o.writeLines (l.lines (d.decodeAll.2.decoded.toList.drop d.decoded.size)) = (none, o') := by
  rw [writeAll] at h
  dsimp only at h
  split at h
  · cases h
  · cases h
  · rename_i hlines
    obtain ⟨he, rfl⟩ := Prod.mk.inj h
    exact ⟨Option.map_eq_none_iff.1 he, hlines⟩

/-- Nothing but decoding can fail if the output has no limit. -/
theorem exists_writeAll_eq (l : Listing) {start : Cursor} {count : UInt32}
    (h : (Decoder.new image start count).decodeAll.1 = none) :
    ∃ o', l.writeAll (.new image start count) .unlimited = (none, o') := by
  have hrenderable : ∀ i ∈ ((Decoder.new image start count).after [.decodeAll]).decoded.toList,
      i.isRenderable = true :=
    fun i hi => (Decoder.legible_of_mem_after hi).shaped.isRenderable
  obtain ⟨texts, htexts⟩ := l.exists_lines_eq_ok hrenderable
  rw [writeAll_unlimited htexts, h]
  exact ⟨_, rfl⟩

/-- **Annotations tile the region.**  If a region does not leave its segment and its annotated
listing is written to the end, there is a line for every group of the decoded instructions, in
order.  The address of a line is that of the first byte of its group, and lies behind the bytes of
all lines before it.  The bytes of all lines are the region. -/
theorem writeAll_tiles_region {start : Cursor} {count : UInt32} {o o' : Output}
    (hregion : start.offset.toNat + count.toNat ≤ 65536)
    (hwrite : (new (some image) true).writeAll (.new image start count) o = (none, o')) :
    ∃ lines : List AnnotatedLine,
      o'.pieces.toList = o.pieces.toList ++ lines.map (fun line => line.render ++ "\n") ∧
      List.Forall₂ (AnnotatedLine.Shows image)
        (groups (Decoder.new image start count).decodeAll.2.decoded.toList) lines ∧
      (∀ before line after, lines = before ++ line :: after →
        line.address = (Address.wrap
          (start.address.toNat + (before.flatMap AnnotatedLine.bytes).length)).toWord) ∧
      lines.flatMap AnnotatedLine.bytes = image.read start.address.toWord count := by
  obtain ⟨hdecoded, hlines⟩ := writeAll_eq_none hwrite
  have hend := Decoder.next_decodeAll (.new image start count)
  rw [hdecoded] at hend
  obtain ⟨d, hd⟩ : ∃ d, (Decoder.new image start count).after [.decodeAll] = d := ⟨_, rfl⟩
  have htracks : d.Tracks start count := hd ▸ Decoder.tracks_after ..
  have hcontiguous : Contiguous start.number d.decoded.toList :=
    hd ▸ Decoder.contiguous_after hregion _
  have hrenderable : ∀ i ∈ d.decoded.toList, i.isRenderable = true := by
    rw [← hd]
    exact fun i hi => (Decoder.legible_of_mem_after hi).shaped.isRenderable
  rw [show (Decoder.new image start count).decodeAll.2 = d from hd] at hend hlines ⊢
  rw [show (Decoder.new image start count).decoded.size = 0 from rfl, List.drop_zero] at hlines
  obtain ⟨hpos, hlast⟩ := htracks.next_finished_iff.1 hend
  have htotal : total d.decoded.toList = count.toNat := by
    rw [← hpos]
    exact htracks.sum_sizes
  have hlines' : ∃ lines : List AnnotatedLine,
      (new (some image) true).lines d.decoded.toList = lines.map (fun line => .ok line.render) ∧
      List.Forall₂ (AnnotatedLine.Shows image) (groups d.decoded.toList) lines := by
    refine lines_annotated hcontiguous ?_ hrenderable fun i hi => hlast i ?_
    · rw [htotal, imageSize]
      omega
    · rw [← Array.getLast?_toList]
      exact hi
  obtain ⟨lines, htexts, hshows⟩ := hlines'
  obtain ⟨texts, hok, hpieces⟩ := Output.writeLines_eq_ok hlines
  refine ⟨lines, ?_, hshows, ?_, ?_⟩
  · have hsame : texts = lines.map AnnotatedLine.render := by
      refine List.map_injective_iff.2 (fun _ _ => Except.ok.inj) (hok.symm.trans (htexts.trans ?_))
      rw [List.map_map]
      rfl
    rw [hpieces, hsame, List.map_map]
    rfl
  · intro before line after hsplit
    rw [address_eq_add hshows (by rwa [groups, List.flatten_splitBy]) hsplit, Cursor.address_eq,
      Address.wrap_toNat_add]
  · rw [flatMap_bytes hshows, groups, List.flatten_splitBy, hcontiguous.flatMap_read, htotal,
      Image.read, Address.ofWord_toWord, Cursor.address_eq]

/-- Two prefixes at the end of the image and their instruction at its start. -/
theorem writeAll_tiles_end_of_image :
    let start : Cursor := ⟨0xFFFF, 0x000E⟩
    let image := Image.zero.layOut start [0xF0, 0xF0, 0x90, 0x90]
    start.address = 0xFFFFE ∧ start.offset.toNat + (4 : UInt32).toNat ≤ 65536 ∧
      ∃ o', (new (some image) true).writeAll (.new image start 4) .unlimited = (none, o') ∧
      ∃ lines : List AnnotatedLine,
        o'.pieces.toList = lines.map (fun line => line.render ++ "\n") ∧
        List.Forall₂ (AnnotatedLine.Shows image)
          (groups (Decoder.new image start 4).decodeAll.2.decoded.toList) lines ∧
        lines.flatMap AnnotatedLine.bytes = [0xF0, 0xF0, 0x90, 0x90] := by
  intro start image
  have hbyte : ∀ k (hk : k < 4), image.along start k = [0xF0, 0xF0, 0x90, 0x90][k] :=
    fun k hk => Image.along_layOut (by decide) hk
  obtain ⟨d, hd⟩ : ∃ d, (Decoder.new image start 4).decodeAll = (none, d) := by
    refine Decoder.decodeAll_of_singles_within (fun k hk second => ?_) ?_
    · rw [hbyte k hk]
      have hmem := List.getElem_mem (l := [0xF0, 0xF0, 0x90, (0x90 : UInt8)]) hk
      simp only [List.mem_cons, List.not_mem_nil, or_false] at hmem
      rcases hmem with h | h | h | h <;> rw [h] <;> exact ⟨rfl, rfl⟩
    · rw [show (4 : UInt32).toNat - 1 = 3 from rfl, hbyte 3 (by decide)]
      decide
  obtain ⟨o', ho⟩ := exists_writeAll_eq (new (some image) true) (congrArg Prod.fst hd)
  have hregion : start.offset.toNat + (4 : UInt32).toNat ≤ 65536 := by decide
  obtain ⟨lines, hlines, hshows, -, htile⟩ := writeAll_tiles_region hregion ho
  refine ⟨by decide, hregion, o', ho, lines, hlines, hshows, htile.trans ?_⟩
  rw [Image.read, Address.ofWord_toWord, Image.getRange_eq_stretch _ hregion]
  exact Image.stretch_layOut _ _ (by decide)

end Listing
end I8086
