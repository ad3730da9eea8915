import I8086.Proofs.Locality
import I8086.Proofs.Splitting
import I8086.Proofs.Targets
import I8086.Proofs.Termination
import Mathlib.Data.List.Forall2

/-!
# Where distances are measured from

A listing without labels writes a jump as `$` and a distance.  For the assembler `$` is the address
of the line, and the prefixes of a jump stand on its line.  The distance is measured from the jump
itself.  So a line says where its jump goes only if there are no prefixes on it, and otherwise it
misses the place by as many bytes as there are prefixes.

* `Instruction.wholeGroups` are the groups that have a line.
* `Image.Holds` says that instructions stand one behind the other in an image, and
  `Decoder.holds_decodeAll` that the instructions of a region do.
* `Machine.step_of_holds` takes a step through prefixes and a jump that stand where the machine
  does.
* `Listing.distance?` reads the distance on a line, `Listing.distance?_lineFrom` says which lines
  have one, and `Listing.Measures` what it means.
-/

set_option autoImplicit false

namespace I8086

open Instruction Text

/-! ## Groups that have a line -/

namespace Instruction

/-- The groups with an instruction, which all of them have but prefixes at the end. -/
def wholeGroups (instructions : List Instruction) : List (List Instruction) :=
  (groups instructions).filter fun group => (body? group).isSome

variable {ps : List Instruction}

theorem wholeGroups_of_prefixes (h : ∀ p ∈ ps, p.isPrefix = true) : wholeGroups ps = [] := by
  refine List.filter_eq_nil_iff.2 fun group hgroup => ?_
  rw [groups_of_prefixes h] at hgroup
  split at hgroup
  · cases hgroup
  · rw [List.mem_singleton.1 hgroup, body?_of_prefixes h]
    exact Bool.false_ne_true

theorem wholeGroups_append_cons (h : ∀ p ∈ ps, p.isPrefix = true) {i : Instruction}
    (hi : i.isPrefix = false) (rest : List Instruction) :
    wholeGroups (ps ++ i :: rest) = (ps ++ [i]) :: wholeGroups rest := by
  rw [wholeGroups, groups_append_cons h hi, List.filter_cons_of_pos (by rw [body?_append hi]; rfl)]
  rfl

end Instruction

/-- Only whole groups have a line. -/
theorem Listing.lines_eq_wholeGroups (l : Listing) (hl : l.waiting = none)
    (instructions : List Instruction) :
    l.lines instructions = (wholeGroups instructions).filterMap l.groupLine? := by
  rw [lines_eq l hl, wholeGroups, List.filterMap_filter]
  refine List.filterMap_congr fun group _ => ?_
  rw [groupLine?]
  cases body? group <;> rfl

/-! ## Instructions in an image -/

/-- The instructions are decoded one behind the other from a place on, whatever prefixes wait. -/
def Image.Holds (image : Image) : Cursor → List Instruction → Prop
  | _, [] => True
  | cursor, i :: rest =>
    (∃ p x, decodeOne p image cursor = .ok x ∧ x.instruction = i) ∧
      image.Holds (cursor.advance i.size) rest

namespace Image

variable {image : Image} {cursor : Cursor}

theorem holds_append {is js : List Instruction} :
    image.Holds cursor (is ++ js) ↔
      image.Holds cursor is ∧ image.Holds (cursor.advance (.ofNat (total is))) js := by
  induction is generalizing cursor with
  | nil => simp [Holds]
  | cons i is ih =>
    rw [List.cons_append, Holds, Holds, ih, Cursor.advance_advance, total_cons, UInt32.ofNat_add,
      UInt32.ofNat_toNat, and_assoc]

theorem Holds.start? {group : List Instruction} (h : image.Holds cursor group) (hne : group ≠ []) :
    Instruction.start? group = some cursor.address.toWord := by
  cases group with
  | nil => exact absurd rfl hne
  | cons i rest =>
    obtain ⟨⟨p, x, hx, rfl⟩, -⟩ := h
    exact congrArg some (address_of_decodeWithin hx)

/-- Every instruction has a byte. -/
theorem Holds.length_le_total {is : List Instruction} (h : image.Holds cursor is) :
    is.length ≤ total is := by
  induction is generalizing cursor with
  | nil => exact Nat.le_refl 0
  | cons i is ih =>
    obtain ⟨⟨p, x, hx, rfl⟩, hrest⟩ := h
    have hsize := (size_of_decodeWithin hx).1
    have hlength := ih hrest
    rw [List.length_cons, total_cons]
    omega

end Image

/-- The instructions of a region stand in the image. -/
theorem Decoder.holds_decodeAll (image : Image) (start : Cursor) (count : UInt32) :
    image.Holds start (new image start count).decodeAll.2.decoded.toList := by
  have hinvariant : ∀ d : Decoder, (d.image = image ∧ d.Tracks start count ∧
      image.Holds start d.decoded.toList) → d.next.2.image = image ∧ d.next.2.Tracks start count ∧
      image.Holds start d.next.2.decoded.toList := by
    rintro d ⟨himage, htracks, hholds⟩
    refine ⟨?_, htracks.next, ?_⟩
    all_goals rcases d.next_cases with ⟨e, he⟩ | ⟨x, -, hx, hnext⟩
    · rw [he]
      exact himage
    · rw [hnext]
      exact himage
    · rw [he]
      exact hholds
    · have htotal : total d.decoded.toList = d.pos.toNat := htracks.sum_sizes
      rw [hnext, take, Array.toList_push, Image.holds_append, htotal, UInt32.ofNat_toNat,
        ← htracks.cursor_eq]
      exact ⟨hholds, ⟨_, x, himage ▸ (decodeOne_of_decodeWithin hx).1, rfl⟩, trivial⟩
  exact (preserved_by_decodeAll hinvariant _ ⟨rfl, .new image start count, trivial⟩).2.2

/-! ## Steps through a group -/

namespace Machine

theorem takes_setIp (m : Machine) (pending : Pending) (v : UInt16) (op : Operation) :
    ({ m with pending }.setIp v).takes op = m.takes op := by
  have hword : ∀ {x : Register}, .ip ≠ x →
      ({ m with pending }.setIp v).registers.word x = m.registers.word x :=
    fun hx => m.registers.word_setWord_of_ne hx v
  have hflags : ({ m with pending }.setIp v).registers.flags = m.registers.flags :=
    hword (by decide)
  have hc : ({ m with pending }.setIp v).registers.word .c = m.registers.word .c :=
    hword (by decide)
  cases op <;> simp only [takes, hc, hflags, Registers.hasFlag]

/-- What is decoded where the machine stands is fetched, if it does not reach beyond the program. -/
theorem fetch_of_decodeOne {m : Machine} {p : Pending} {x : Decoded}
    (hx : decodeOne p m.image m.cursor = .ok x) (hp : x.instruction.isPrefix = false)
    (hend : m.ip.toNat + x.instruction.size.toNat ≤ m.size.toNat) :
    ∃ j m', m.fetch = .ready j m.ip m' ∧ j.operation = x.instruction.operation ∧
      (∀ d, x.instruction.operands.first = some (.relative d) →
        j.operands.first = some (.relative d)) ∧ ∀ op, m'.takes op = m.takes op := by
  obtain ⟨f, hf, found, -, -, rfl, hany⟩ := decodeWithin_eq_ok hx
  have hend : m.ip.toNat + (m.pending.attach found).size.toNat ≤ m.size.toNat := hend
  have hinside : ¬ m.ip.toUInt32 + (m.pending.attach found).size > m.size := by
    have hlt := m.size.toNat_lt
    rw [gt_iff_lt, UInt32.lt_iff_toNat_lt, UInt32.toNat_add, UInt16.toNat_toUInt32]
    omega
  have hp : (m.pending.attach found).isPrefix = false := hp
  have hfetch : m.fetch = .ready (m.pending.attach found) m.ip
      ({ m with pending := m.pending.after (m.pending.attach found) }.setIp
        (m.cursor.advance found.size).offset) := by
    rw [fetch, decodeOne, hany m.pending]
    dsimp only
    rw [if_neg hinside, hp, if_neg Bool.false_ne_true]
  refine ⟨_, _, hfetch, rfl, fun d hd => ?_, takes_setIp m _ _⟩
  rw [Pending.operands_attach, Operands.map, Option.map_eq_some_iff] at hd ⊢
  obtain ⟨y, hy, hyd⟩ := hd
  refine ⟨y, hy, ?_⟩
  cases y <;> cases hyd
  rfl

/-- A jump that stands where the machine does, and is taken. -/
theorem stepWithin_of_decodeOne {m : Machine} {p : Pending} {x : Decoded} {d : Int32}
    (hx : decodeOne p m.image m.cursor = .ok x) (hp : x.instruction.isPrefix = false)
    (hend : m.ip.toNat + x.instruction.size.toNat ≤ m.size.toNat)
    (hd : x.instruction.operands.first = some (.relative d))
    (htakes : m.takes x.instruction.operation = true) (n : Nat) :
    (∃ j, (m.stepWithin (n + 1)).1 = .executed j) ∧
      (m.stepWithin (n + 1)).2.ip = m.ip + d.toUInt32.toUInt16 := by
  obtain ⟨j, m', hfetch, hop, hrelative, hsame⟩ := fetch_of_decodeOne hx hp hend
  have hexecuted : (m'.execute j m.ip).1 = none ∧
      (m'.execute j m.ip).2.ip = m.ip + d.toUInt32.toUInt16 := by
    refine execute_of_takes (hrelative d hd) ?_
    rw [hop, hsame]
    exact htakes
  rw [stepWithin, hfetch]
  rcases hexecute : m'.execute j m.ip with ⟨e, m''⟩
  rw [hexecute] at hexecuted
  obtain ⟨rfl, hip⟩ := hexecuted
  simp only [hexecute]
  exact ⟨⟨j, rfl⟩, hip⟩

/-- **A step through a group.**  If prefixes and a jump stand where the machine does, a step takes
all of them, and the distance counts from behind the prefixes. -/
theorem step_of_holds {m : Machine} {image : Image} {cursor : Cursor} {ps : List Instruction}
    {i : Instruction} {d : Int32} (hholds : image.Holds cursor (ps ++ [i]))
    (hps : ∀ p ∈ ps, p.isPrefix = true) (hi : i.isPrefix = false)
    (hd : i.operands.first = some (.relative d))
    (hbytes : ∀ k < total (ps ++ [i]), m.image.along m.cursor k = image.along cursor k)
    (hend : m.ip.toNat + total (ps ++ [i]) ≤ m.size.toNat)
    (hsegment : m.ip.toNat + total (ps ++ [i]) < 65536)
    (htakes : m.takes i.operation = true) {n : Nat} (hn : ps.length < n) :
    (∃ j, (m.stepWithin n).1 = .executed j) ∧
      (m.stepWithin n).2.ip = m.ip + .ofNat ps.length + d.toUInt32.toUInt16 := by
  -- one prefix after the other: the machine stands behind it, with the same bytes to come
  induction ps generalizing m cursor n with
  | nil =>
    obtain ⟨n, rfl⟩ := Nat.exists_eq_add_one_of_ne_zero (Nat.ne_zero_of_lt hn)
    obtain ⟨⟨p, x, hx, rfl⟩, -⟩ := hholds
    rw [List.nil_append, total_cons, total_nil, Nat.add_zero] at hbytes hend
    obtain ⟨hexecuted, hip⟩ :=
      stepWithin_of_decodeOne (decodeWithin_of_along_eq hx hbytes) hi hend hd htakes n
    exact ⟨hexecuted, hip.trans (congrArg (· + _) (UInt16.add_zero m.ip).symm)⟩
  | cons p ps ih =>
    obtain ⟨n, rfl⟩ := Nat.exists_eq_add_one_of_ne_zero (Nat.ne_zero_of_lt hn)
    obtain ⟨⟨q, x, hx, rfl⟩, hrest⟩ := hholds
    rw [List.forall_mem_cons] at hps
    have hbyte := (isPrefix_iff_of_decodeWithin hx).1 hps.1
    have hsize : x.instruction.size = 1 := by
      obtain ⟨x', hx', -, hone, -⟩ := decodeOne_of_mem_bytes q hbyte
      cases hx.symm.trans hx'
      exact hone
    rw [List.cons_append, total_cons, hsize, UInt32.toNat_one] at hbytes hend hsegment
    have hip : (m.ip + 1).toNat = m.ip.toNat + 1 := by
      rw [UInt16.toNat_add, UInt16.toNat_one]
      omega
    have hprefixed : m.PrefixAt 0 := by
      rw [prefixAt_zero, ← Image.along_zero, hbytes 0 (by omega), Image.along_zero]
      exact ⟨hbyte, by omega⟩
    have htail : ∀ k < total (ps ++ [i]), m.passPrefix.image.along m.passPrefix.cursor k =
        image.along (cursor.advance 1) k := by
      intro k hk
      rw [cursor_passPrefix, ← Image.along_succ, ← Image.along_succ]
      exact hbytes (k + 1) (by omega)
    have hip' : m.passPrefix.ip = m.ip + 1 := ip_setIp ..
    rw [hsize] at hrest
    obtain ⟨hexecuted, hfinal⟩ := ih hrest hps.2 htail
      (by rw [hip', hip]; exact Nat.le_trans (by omega) hend) (by rw [hip', hip]; omega)
      ((takes_setIp m _ _ _).trans htakes) (Nat.lt_of_succ_lt_succ hn)
    rw [stepWithin_of_prefixAt hprefixed]
    refine ⟨hexecuted, hfinal.trans (congrArg (· + _) ?_)⟩
    rw [hip', List.length_cons, UInt16.add_assoc, Nat.add_comm, UInt16.ofNat_add]
    rfl

end Machine

/-! ## Distances on lines -/

namespace Listing

/-- The distance on a line, as it is written: what follows the first `$`, up to a space.  It is not
looked for in the annotation. -/
def distance? (line : String) : Option String :=
  match (line.toList.takeWhile (· != ';')).dropWhile (· != '$') with
  | [] => none
  | _ :: rest => some (.ofList (rest.takeWhile (· != ' ')))

/-- In front of its annotation a line is the text of its instruction and some spaces. -/
theorem takeWhile_lineFrom {l : Listing} {start : UInt32} {i : Instruction} {line : String}
    (h : l.lineFrom start i = .ok line) :
    ∃ n, line.toList.takeWhile (· != ';') = i.render.toList ++ List.replicate n ' ' := by
  have hlacks : ∀ n, ';' ∉ i.render.toList ++ List.replicate n ' ' := by
    intro n
    rw [List.mem_append, List.mem_replicate]
    rintro (hmem | ⟨-, hmem⟩)
    · exact i.lacks_render ';' (by simp) hmem
    · cases hmem
  rw [lineFrom.eq_def, text] at h
  split at h <;> split at h <;> cases h
  · rename_i image _ _
    refine ⟨36 - i.render.length + 1, ?_⟩
    have hline : ∀ tail : String, (padRight 36 ' ' i.render ++ " ; 0x" ++ tail).toList =
        (i.render.toList ++ List.replicate (36 - i.render.length + 1) ' ') ++
          ';' :: ' ' :: '0' :: 'x' :: tail.toList := by
      intro tail
      simp [padRight, List.replicate_succ']
    rw [annotated, String.append_assoc, String.append_assoc, hline,
      takeWhile_of_stops (bne_of_not_mem (hlacks _)) (.cons rfl _)]
  · refine ⟨0, ?_⟩
    have hnone : ';' ∉ i.render.toList := i.lacks_render ';' (by simp)
    rw [List.takeWhile_eq_self_iff.2 (bne_of_not_mem hnone), List.replicate_zero, List.append_nil]

/-- A line shows a distance if its instruction has one, and then it is that one. -/
theorem distance?_lineFrom {l : Listing} {start : UInt32} {i : Instruction} {line : String}
    (hi : i.Legible) (h : l.lineFrom start i = .ok line) (s : String) :
    distance? line = some s ↔
      ∃ d, i.operands.first = some (.relative d) ∧ plusSigned d.toInt = s := by
  obtain ⟨n, hn⟩ := takeWhile_lineFrom h
  rw [distance?, hn]
  by_cases hd : ∃ d, i.operands.first = some (.relative d)
  · obtain ⟨d, hd⟩ := hd
    have hfront : '$' ∉ (i.renderHead ++ " ").toList := by
      have hlacks : Lacks ['$'] (i.renderHead ++ " ") :=
        (i.lacks_renderHead.subset (by simp)).append (by simp [Lacks])
      exact hlacks '$' (by simp)
    have hnumber : ' ' ∉ (plusSigned d.toInt).toList := by
      rw [plusSigned]
      split <;> simp [not_mem_decimal]
    have hspaces : Stops (· != ' ') (List.replicate n ' ') := by
      cases n with
      | zero => exact .nil _
      | succ n => exact .cons rfl _
    have hline : i.render.toList ++ List.replicate n ' ' = (i.renderHead ++ " ").toList ++
        '$' :: ((plusSigned d.toInt).toList ++ List.replicate n ' ') := by
      rw [render_eq, rest_of_relative (hi.of_relative hd).1]
      simp
    rw [hline, List.dropWhile_append_of_pos (bne_of_not_mem hfront),
      List.dropWhile_cons_of_neg (by simp)]
    dsimp only
    rw [takeWhile_of_stops (bne_of_not_mem hnumber) hspaces, String.ofList_toList,
      Option.some.injEq, hd]
    simp
  · have hwritten : ∀ x ∈ i.writtenOperands.toList, ∀ d, x ≠ .relative d := by
      rintro x hx d rfl
      refine hd ⟨d, ?_⟩
      rw [(hi.arranged.distance d (mem_operands_of_mem_writtenOperands hx)).1]
    have hnone : '$' ∉ i.render.toList ++ List.replicate n ' ' := by
      rw [List.mem_append, List.mem_replicate]
      rintro (hmem | ⟨-, hmem⟩)
      · exact lacks_render_of_not_relative hwritten '$' (by simp) hmem
      · cases hmem
    rw [List.dropWhile_eq_nil_iff.2 (bne_of_not_mem hnone)]
    constructor
    · intro hs
      cases hs
    · rintro ⟨d, hfirst, -⟩
      exact absurd ⟨d, hfirst⟩ hd

end Listing

/-! ## Programs -/

/-- The machine stands at offset `a` of its code segment in front of some bytes, and all of them are
part of its program. -/
structure Machine.Before (m : Machine) (a : Nat) (bytes : List UInt8) : Prop where
  ip_eq : m.ip.toNat = a
  bytes_eq : m.image.stretch m.cursor bytes.length = bytes
  end_le : a + bytes.length ≤ m.size.toNat

namespace Listing

/-- The line of a group that starts at offset `a` of a program.  It shows a distance exactly if its
instruction is a jump by one, and a machine that takes the jump goes as far from behind the
prefixes.  That is as far from the start of the line exactly if there are no prefixes. -/
structure Measures (l : Listing) (program : List UInt8) (ps : List Instruction) (i : Instruction)
    (a : Nat) (line : String) : Prop where
  prefixes : ∀ p ∈ ps, p.isPrefix = true
  body : i.isPrefix = false
  start_eq : start? (ps ++ [i]) = some (.ofNat a)
  end_le : a + total (ps ++ [i]) ≤ program.length
  line_eq : l.lineFrom (.ofNat a) i = .ok line
  shows_iff : (distance? line).isSome = true ↔ ∃ d, i.operands.first = some (.relative d)
  goes : ∀ (n : Int) (m : Machine), distance? line = some (plusSigned n) →
    m.Before a ((program.drop a).take (total (ps ++ [i]))) → m.takes i.operation = true →
      (∃ j, m.step.1 = .executed j) ∧ (m.step.2.ip.toNat : Int) = (a + ps.length + n) % 65536 ∧
        ((m.step.2.ip.toNat : Int) = (a + n) % 65536 ↔ ps = [])

variable {program : List UInt8}

/-- The bytes of a program along a cursor. -/
theorem along_program (hlen : program.length ≤ 65535) {a k : Nat} (h : a + k < program.length) :
    (Image.zero.setRange 0 program).along (Cursor.advance ⟨0, 0⟩ (.ofNat a)) k =
      program[a + k] := by
  rw [Image.along, ← Cursor.addressAt_add, ← Image.along, Decoder.along_setRange_zero,
    Nat.mod_eq_of_lt (by omega), List.getElem?_eq_getElem h, Option.getD_some]

/-- Addresses at the beginning of the image are numbers. -/
theorem address_advance_zero {a : Nat} (h : a < 65536) :
    (Cursor.advance ⟨0, 0⟩ (.ofNat a)).address.toWord = .ofNat a := by
  rw [← UInt32.toNat_inj, Address.toNat_toWord, Cursor.address_advance, Cursor.addressAt,
    Address.toNat_ofSegment, UInt16.toNat_zero, UInt16.toNat_ofNat', UInt32.toNat_ofNat', imageSize]
  omega

/-- A sum of three words, the last of which has a sign. -/
theorem toNat_add_distance (a : UInt16) (k : Nat) (d : Int32) :
    ((a + .ofNat k + d.toUInt32.toUInt16).toNat : Int) = (a.toNat + k + d.toInt) % 65536 := by
  have hd : d.toInt = if 2 * d.toUInt32.toNat < 4294967296 then (d.toUInt32.toNat : Int)
      else d.toUInt32.toNat - 4294967296 := BitVec.toInt_eq_toNat_cond d.toBitVec
  rw [UInt16.toNat_add, UInt16.toNat_add, UInt16.toNat_ofNat', UInt32.toNat_toUInt16, hd]
  split <;> omega

/-- The machine reads what stands in the program. -/
theorem along_of_before (hlen : program.length ≤ 65535) {m : Machine} {a n : Nat}
    (hend : a + n ≤ program.length) (hm : m.Before a ((program.drop a).take n)) :
    a + n ≤ m.size.toNat ∧ ∀ k < n, m.image.along m.cursor k =
      (Image.zero.setRange 0 program).along (Cursor.advance ⟨0, 0⟩ (.ofNat a)) k := by
  have hcount : ((program.drop a).take n).length = n := by
    rw [List.length_take, List.length_drop]
    omega
  have hsize := hm.end_le
  rw [hcount] at hsize
  refine ⟨hsize, fun k hk => ?_⟩
  have hbyte := Image.getElem?_stretch m.image m.cursor (hcount.symm ▸ hk)
  rw [hm.bytes_eq, List.getElem?_take_of_lt hk, List.getElem?_drop,
    List.getElem?_eq_getElem (by omega)] at hbyte
  rw [along_program hlen (by omega)]
  exact (Option.some.inj hbyte).symm

section Group

variable (hlen : program.length ≤ 65535) {ps : List Instruction} {i : Instruction} {a : Nat}
  (hholds : (Image.zero.setRange 0 program).Holds (Cursor.advance ⟨0, 0⟩ (.ofNat a)) (ps ++ [i]))
  (hps : ∀ p ∈ ps, p.isPrefix = true) (hi : i.isPrefix = false)
  (hend : a + total (ps ++ [i]) ≤ program.length)

include hlen hholds hps hi hend

theorem step_of_before {d : Int32} (hd : i.operands.first = some (.relative d)) {m : Machine}
    (hm : m.Before a ((program.drop a).take (total (ps ++ [i]))))
    (htakes : m.takes i.operation = true) :
    (∃ j, m.step.1 = .executed j) ∧
      (m.step.2.ip.toNat : Int) = (a + ps.length + d.toInt) % 65536 := by
  have hlength := hholds.length_le_total
  rw [List.length_append, List.length_singleton] at hlength
  obtain ⟨hsize, hbytes⟩ := along_of_before hlen hend hm
  have hstep : (∃ j, m.step.1 = .executed j) ∧
      m.step.2.ip = m.ip + .ofNat ps.length + d.toUInt32.toUInt16 :=
    Machine.step_of_holds hholds hps hi hd hbytes (by rwa [hm.ip_eq])
      (by rw [hm.ip_eq]; omega) htakes (by omega)
  refine ⟨hstep.1, ?_⟩
  rw [hstep.2, toNat_add_distance, hm.ip_eq]

theorem measures (hlegible : i.Legible) {l : Listing} {line : String}
    (hline : l.lineFrom (.ofNat a) i = .ok line) : l.Measures program ps i a line := by
  have hlength := hholds.length_le_total
  rw [List.length_append, List.length_singleton] at hlength
  refine ⟨hps, hi, ?_, hend, hline, ?_, ?_⟩
  · rw [hholds.start? (by simp), address_advance_zero (by omega)]
  · rw [Option.isSome_iff_exists]
    simp only [distance?_lineFrom hlegible hline]
    constructor
    · rintro ⟨-, d, hd, -⟩
      exact ⟨d, hd⟩
    · rintro ⟨d, hd⟩
      exact ⟨_, d, hd, rfl⟩
  · intro n m hn hm htakes
    obtain ⟨d, hd, hsame⟩ := (distance?_lineFrom hlegible hline _).1 hn
    obtain rfl := plusSigned_injective hsame
    obtain ⟨hexecuted, hip⟩ := step_of_before hlen hholds hps hi hend hd hm htakes
    refine ⟨hexecuted, hip, ?_⟩
    -- there are less than 65536 prefixes, so they can be told from none
    rw [hip, ← List.length_eq_zero_iff]
    omega

end Group

/-- Every line of a region in a program is the line of a group. -/
theorem lines_measures (hlen : program.length ≤ 65535) {l : Listing} (hl : l.waiting = none)
    {instructions : List Instruction} {a : Nat}
    (hholds : (Image.zero.setRange 0 program).Holds (Cursor.advance ⟨0, 0⟩ (.ofNat a)) instructions)
    (hlegible : ∀ i ∈ instructions, i.Legible) (hend : a + total instructions ≤ program.length) :
    ∃ lines : List String, l.lines instructions = lines.map .ok ∧
      List.Forall₂ (fun group line => ∃ ps i a, group = ps ++ [i] ∧ l.Measures program ps i a line)
        (wholeGroups instructions) lines := by
  rw [l.lines_eq_wholeGroups hl]
  induction instructions using groups_induction generalizing a with
  | prefixes ps h =>
    rw [wholeGroups_of_prefixes h]
    exact ⟨[], rfl, .nil⟩
  | group ps i rest h hi ih =>
    rw [show ps ++ i :: rest = (ps ++ [i]) ++ rest by simp] at hholds hend hlegible
    rw [total_append] at hend
    obtain ⟨hgroup, hrest⟩ := Image.holds_append.1 hholds
    rw [Cursor.advance_advance, ← UInt32.ofNat_add] at hrest
    obtain ⟨lines, hlines, hmeasures⟩ := ih hrest (fun j hj => hlegible j (by simp [hj])) (by omega)
    have hi' : i.Legible := hlegible i (by simp)
    obtain ⟨line, hline⟩ := l.exists_lineFrom_eq_ok (.ofNat a) hi'.shaped.isRenderable
    have hfirst := measures hlen hgroup h hi (by omega) hi' hline
    have hgroupLine : l.groupLine? (ps ++ [i]) = some (.ok line) := by
      rw [groupLine?, body?_append hi, hfirst.start_eq]
      exact congrArg some hline
    rw [wholeGroups_append_cons h hi, List.filterMap_cons_some hgroupLine, hlines]
    exact ⟨line :: lines, rfl, .cons ⟨ps, i, a, rfl, hfirst⟩ hmeasures⟩

/-- **A distance is measured from the jump and not from its line.**  A program that ends before the
end of the first segment has a line for every group of instructions that decoding finds, in order.
If the line shows a distance, any machine that stands in front of the same bytes at the same offset
and takes the jump goes by that distance from behind the prefixes of the group.  So the line is
right about where the jump goes exactly if it has no prefixes. -/
theorem writeAll_measures_from_jump (program : List UInt8) (hlen : program.length ≤ 65535)
    (shown : Option Image) (annotate : Bool) :
    let l := new shown annotate
    let d := Decoder.ofProgram program
    ∃ lines : List String,
      l.writeAll d .unlimited =
        (d.decodeAll.1.map .decode, ⟨(lines.map (· ++ "\n")).toArray, none⟩) ∧
      List.Forall₂ (fun group line => ∃ ps i a, group = ps ++ [i] ∧ l.Measures program ps i a line)
        (wholeGroups d.decodeAll.2.decoded.toList) lines := by
  intro l d
  have hholds : (Image.zero.setRange 0 program).Holds ⟨0, 0⟩ d.decodeAll.2.decoded.toList :=
    Decoder.holds_decodeAll ..
  have htracks : d.decodeAll.2.Tracks ⟨0, 0⟩ (.ofNat (min program.length imageSize)) :=
    Decoder.tracks_after _ _ _ [.decodeAll]
  have htotal : total d.decodeAll.2.decoded.toList ≤ program.length := by
    have hsum : total d.decodeAll.2.decoded.toList = d.decodeAll.2.pos.toNat := htracks.sum_sizes
    have hpos := UInt32.le_iff_toNat_le.1 htracks.pos_le
    rw [UInt32.toNat_ofNat'] at hpos
    omega
  have hlegible : ∀ i ∈ (d.after [.decodeAll]).decoded.toList, i.Legible :=
    fun i hi => Decoder.legible_of_mem_after hi
  obtain ⟨lines, hlines, hmeasures⟩ := lines_measures (l := l) (a := 0) hlen rfl
    (by rwa [show UInt32.ofNat 0 = 0 from rfl, Cursor.advance_zero]) hlegible
    (by rwa [Nat.zero_add])
  exact ⟨lines, writeAll_unlimited hlines, hmeasures⟩

/-- A jump back to its own `lock`, and a jump to the same place without one.  Only the second line
says where its jump goes. -/
theorem writeAll_measures_lock_jmp_jmp :
    let program : List UInt8 := [0xF0, 0xEB, 0xFD, 0xEB, 0xFB]
    let m := Machine.new (Image.zero.setRange 0 program) 5
    program.length ≤ 65535 ∧
      (new none false).writeAll (.ofProgram program) .unlimited =
        (none, ⟨#["lock jmp $-1\n", "jmp $-3\n"], none⟩) ∧
      m.ip = 0 ∧ (m.step.2.ip.toNat : Int) = (0 + 1 + -1) % 65536 ∧
      (m.setIp 3).ip = 3 ∧ ((m.setIp 3).step.2.ip.toNat : Int) = (3 + -3) % 65536 := by
  intro program m
  let lock : Instruction := ⟨0, 1, .lock, .none, .empty⟩
  let jmp : Instruction := ⟨1, 2, .jmp, .lock, ⟨some (.relative (-1)), none, none⟩⟩
  let jmp' : Instruction := ⟨3, 2, .jmp, .none, ⟨some (.relative (-3)), none, none⟩⟩
  have hdecoded : (Decoder.ofProgram program).next.2.next.2.next.2.next.1 = .error .finished ∧
      (Decoder.ofProgram program).next.2.next.2.next.2.decoded.toList = [lock, jmp, jmp'] ∧
      jmp.text = .ok "lock jmp $-1" ∧ distance? "lock jmp $-1" = some (plusSigned (-1)) ∧
      jmp'.text = .ok "jmp $-3" ∧ distance? "jmp $-3" = some (plusSigned (-3)) ∧
      m.image.stretch m.cursor 3 = [0xF0, 0xEB, 0xFD] ∧
      (m.setIp 3).image.stretch (m.setIp 3).cursor 2 = [0xEB, 0xFB] := by
    decide +kernel
  obtain ⟨hend, hlist, htext, hshown, htext', hshown', hbytes, hbytes'⟩ := hdecoded
  obtain ⟨d, hall, hlist⟩ : ∃ d, (Decoder.ofProgram program).decodeAll = (none, d) ∧
      d.decoded.toList = [lock, jmp, jmp'] := by
    have hall := Decoder.decodeAll_of_finished hend
    rw [Decoder.decodeAll_next, Decoder.decodeAll_next, Decoder.decodeAll_next] at hall
    exact ⟨_, hall, hlist⟩
  have hlen : program.length ≤ 65535 := by decide
  obtain ⟨lines, hwrite, hlines⟩ := writeAll_measures_from_jump program hlen none false
  rw [hall] at hwrite hlines
  rw [hlist, show wholeGroups [lock, jmp, jmp'] = [[lock, jmp], [jmp']] from rfl] at hlines
  obtain _ | ⟨⟨ps, i, a, hgroup, hfirst⟩, _ | ⟨⟨qs, j, b, hgroup', hsecond⟩, _ | _⟩⟩ := hlines
  obtain ⟨rfl, hi⟩ := List.append_inj' (show [lock] ++ [jmp] = ps ++ [i] from hgroup) rfl
  obtain ⟨rfl, hj⟩ := List.append_inj' (show [] ++ [jmp'] = qs ++ [j] from hgroup') rfl
  cases hi
  cases hj
  have hoffset : ∀ {a n : Nat}, a ≤ 5 → n ≤ 5 → some (UInt32.ofNat n) = some (.ofNat a) →
      a = n := by
    intro a n ha hn h
    have hnat := congrArg UInt32.toNat (Option.some.inj h)
    rw [UInt32.toNat_ofNat', UInt32.toNat_ofNat'] at hnat
    omega
  have hle : a ≤ 5 ∧ b ≤ 5 := ⟨Nat.le_trans (Nat.le_add_right ..) hfirst.end_le,
    Nat.le_trans (Nat.le_add_right ..) hsecond.end_le⟩
  obtain rfl : a = 0 := hoffset hle.1 (Nat.zero_le 5) hfirst.start_eq
  obtain rfl : b = 3 := hoffset hle.2 (by decide) hsecond.start_eq
  obtain rfl := Except.ok.inj (htext.symm.trans hfirst.line_eq)
  obtain rfl := Except.ok.inj (htext'.symm.trans hsecond.line_eq)
  obtain ⟨-, hip, -⟩ := hfirst.goes (-1) m hshown ⟨rfl, hbytes, by decide⟩ rfl
  obtain ⟨-, hip', -⟩ := hsecond.goes (-3) (m.setIp 3) hshown' ⟨rfl, hbytes', by decide⟩ rfl
  exact ⟨hlen, hwrite, rfl, hip, rfl, hip'⟩

/-- The machine jumps back to the `lock`, which is the start of the line, and the line shows the
byte in front of it. -/
theorem lock_jmp_misses_line :
    let program : List UInt8 := [0xF0, 0xEB, 0xFD]
    let m := Machine.new (Image.zero.setRange 0 program) 3
    let line := "lock jmp $-1"
    (new none false).writeAll (.ofProgram program) .unlimited = (none, ⟨#[line ++ "\n"], none⟩) ∧
      distance? line = some (plusSigned (-1)) ∧ m.Before 0 program ∧ m.takes .jmp = true ∧
      (∃ i, m.step.1 = .executed i) ∧ m.step.2.ip = 0 ∧
      (m.step.2.ip.toNat : Int) ≠ (0 + -1) % 65536 := by
  intro program m line
  let jmp : Instruction := ⟨1, 2, .jmp, .lock, ⟨some (.relative (-1)), none, none⟩⟩
  have hdecoded : (Decoder.ofProgram program).next.2.next.2.next.1 = .error .finished ∧
      (new none false).lines (Decoder.ofProgram program).next.2.next.2.decoded.toList =
        [line].map .ok ∧
      distance? line = some (plusSigned (-1)) ∧ m.image.stretch m.cursor 3 = program ∧
      m.step.1 = .executed jmp ∧ m.step.2.ip = 0 := by
    decide +kernel
  obtain ⟨hend, hlines, hshown, hbytes, hexecuted, hip⟩ := hdecoded
  obtain ⟨d, hall, hlines⟩ : ∃ d, (Decoder.ofProgram program).decodeAll = (none, d) ∧
      (new none false).lines d.decoded.toList = [line].map .ok := by
    have hall := Decoder.decodeAll_of_finished hend
    rw [Decoder.decodeAll_next, Decoder.decodeAll_next] at hall
    exact ⟨_, hall, hlines⟩
  have hwrite : (new none false).writeAll (.ofProgram program) .unlimited =
      ((Decoder.ofProgram program).decodeAll.1.map .decode,
        ⟨([line].map (· ++ "\n")).toArray, none⟩) := by
    refine writeAll_unlimited ?_
    rw [← hlines]
    exact congrArg (fun r => (new none false).lines r.2.decoded.toList) hall
  rw [hall] at hwrite
  refine ⟨hwrite, hshown, ⟨rfl, hbytes, by decide⟩, rfl, ⟨jmp, hexecuted⟩, hip, ?_⟩
  rw [hip]
  decide

end Listing

end I8086
