import Stcbsl.HexRecord
import Stcbsl.Overwrite

/-!
# The Image of an Intel HEX Text

A text is read record by record up to the first end-of-file record. The data records lay
their bytes over each other, each at the base that is set when it is read; a text is refused
for its first line that is no record, or one that is not allowed at its place.

## The meaning of a list of records

A list of records has a base behind it (`baseAfter`), the one that the last address record in it
sets, and places its data records at addresses (`placed`). Whether a further record is allowed
depends on that base alone (`Allowed`): the type has to be known, an address record needs two
data bytes, a linear address has to be zero, and data has to end within the 64 KB. None of this
mentions the loop.

## The invariant

Behind the records `rs` the variables of the loop hold what `rs` mean (`Holds`): the base, the
overlay of the placed records in a memory as long as their extent, the lowest address, and
whether there was data. `applyRecord_cases` is the step lemma, with one case for each type of
record, and `parseLines_cases` the run lemma over the lines of the text.

## Main results

* `applyRecord_cases` — what the reader does with a record, in every reachable state.
* `parseLines_cases` — what it does with a list of lines.
* `parse_cases` — the outcomes of the reader.
* `parse_overlay` — the image of an accepted text.
-/

namespace Stcbsl

namespace IntelHex

open Text Overwrite

/-! ### The meaning of a list of records -/

/-- The first two data bytes of a record, as a number. -/
def Record.value (r : Record) : ℕ := (r.data.getD 0 0).toNat * 256 + (r.data.getD 1 0).toNat

/-- Extended segment and extended linear address records set the base. -/
def Record.setsBase (r : Record) : Bool := r.rtype == 0x02 || r.rtype == 0x04

/-- The base such a record sets: sixteen times its paragraph, or zero. -/
def Record.newBase (r : Record) : ℕ := if r.rtype = 0x02 then r.value * 16 else 0

/-- The base behind some records: that of the latest record that sets it, zero at first. -/
def baseAfter (rs : List Record) : ℕ :=
  ((rs.filter Record.setsBase).getLast?.map Record.newBase).getD 0

/-- The data records of a list, each placed at the base behind the records before it plus its
offset. -/
def placed (rs : List Record) : List (Block UInt8) :=
  (List.range rs.length).filterMap fun i =>
    rs[i]?.bind fun r =>
      if r.rtype = 0x00 then some (baseAfter (rs.take i) + r.offset.toNat, r.data) else none

/-- The record is allowed where the base has this value. -/
structure Allowed (base : ℕ) (r : Record) : Prop where
  rtype : r.rtype ∈ [0x00, 0x01, 0x02, 0x03, 0x04, 0x05]
  count : r.rtype = 0x02 ∨ r.rtype = 0x04 → r.count = 2
  value : r.rtype = 0x04 → r.value = 0
  range : r.rtype = 0x00 → base + r.offset.toNat + r.count.toNat ≤ 0x10000

/-- The records of some lines, up to and with the first end-of-file record. -/
inductive Listed : List (List Char) → List Record → Prop
  | nil : Listed [] []
  | blank {raw : List Char} {ls : List (List Char)} {rs : List Record} (hblank : trim raw = [])
      (h : Listed ls rs) : Listed (raw :: ls) rs
  | record {raw : List Char} {ls : List (List Char)} {r : Record} {rs : List Record}
      (hr : RecordLine (trim raw) r) (hne : r.rtype ≠ 0x01) (h : Listed ls rs) :
      Listed (raw :: ls) (r :: rs)
  | last {raw : List Char} {ls : List (List Char)} {r : Record}
      (hr : RecordLine (trim raw) r) (heof : r.rtype = 0x01) : Listed (raw :: ls) [r]

/-- Without records the base is zero. -/
@[simp] theorem baseAfter_nil : baseAfter [] = 0 := rfl

/-- A further record sets the base, or leaves it. -/
theorem baseAfter_concat (rs : List Record) (r : Record) :
    baseAfter (rs ++ [r]) = if r.setsBase then r.newBase else baseAfter rs := by
  rw [baseAfter, List.filter_append]
  by_cases h : r.setsBase = true
  · rw [if_pos h, List.filter_cons_of_pos h, List.filter_nil, List.getLast?_concat]
    rfl
  · rw [if_neg h, List.filter_cons_of_neg h, List.filter_nil, List.append_nil]
    rfl

/-- The two data bytes of an address record are below `0x10000`. -/
theorem Record.value_lt (r : Record) : r.value < 0x10000 := by
  have h0 := (r.data.getD 0 0).toNat_lt
  have h1 := (r.data.getD 1 0).toNat_lt
  rw [Record.value]
  omega

/-- The base stays far below what overflows. -/
theorem baseAfter_le (rs : List Record) : baseAfter rs ≤ 0xFFFF0 := by
  induction rs using List.reverseRecOn with
  | nil => exact Nat.zero_le _
  | append_singleton rs r ih =>
      rw [baseAfter_concat]
      split
      · have := r.value_lt
        rw [Record.newBase]
        split <;> omega
      · exact ih

/-- A further record places its data, if it is one of data. -/
theorem placed_concat (rs : List Record) (r : Record) :
    placed (rs ++ [r]) = placed rs ++
      if r.rtype = 0x00 then [(baseAfter rs + r.offset.toNat, r.data)] else [] := by
  have hrs : ∀ i ∈ List.range rs.length,
      ((rs ++ [r])[i]?.bind fun r' =>
        if r'.rtype = 0x00 then
          some (baseAfter ((rs ++ [r]).take i) + r'.offset.toNat, r'.data) else none) =
      (rs[i]?.bind fun r' =>
        if r'.rtype = 0x00 then some (baseAfter (rs.take i) + r'.offset.toNat, r'.data)
        else none) := by
    intro i hi
    rw [List.mem_range] at hi
    rw [List.getElem?_append_left hi, List.take_append_of_le_length (Nat.le_of_lt hi)]
  rw [placed, List.length_append, List.length_singleton, List.range_succ, List.filterMap_append,
    List.filterMap_congr hrs, placed]
  congr 1
  rw [List.filterMap_cons, List.filterMap_nil, List.getElem?_append_right (Nat.le_refl _),
    List.take_left' rfl]
  by_cases h : r.rtype = 0x00 <;> simp [h]

/-! ### The memory of the loop -/

/-- The memory as a function of the address. -/
def contents (mem : List (Option UInt8)) : ℕ → Option UInt8 := fun a => mem[a]?.join

/-- Growing the memory with gaps changes no content. -/
theorem contents_resize {mem : List (Option UInt8)} {n : ℕ} (h : mem.length ≤ n) :
    contents (resize mem n none) = contents mem := by
  funext a
  rw [contents, contents, resize, List.take_of_length_le h]
  by_cases ha : a < mem.length
  · rw [List.getElem?_append_left ha]
  · have hnone : mem[a]? = none := List.getElem?_eq_none (Nat.le_of_not_lt ha)
    rw [List.getElem?_append_right (Nat.le_of_not_lt ha), hnone, List.getElem?_replicate]
    split <;> rfl

/-- Growing makes the memory as long as it is told to be. -/
theorem length_resize {mem : List (Option UInt8)} {n : ℕ} :
    (resize mem n none).length = n := by
  rw [resize, List.length_append, List.length_take, List.length_replicate]
  omega

/-- Setting one cell overwrites one address. -/
theorem contents_set {mem : List (Option UInt8)} {a : ℕ} (b : UInt8) (h : a < mem.length) :
    contents (mem.set a (some b)) = overwrite (contents mem) a [some b] := by
  funext i
  rw [contents, overwrite_apply]
  by_cases hi : i = a
  · subst hi
    simp [h]
  · rw [List.getElem?_set_ne (Ne.symm hi)]
    split
    · have hnone : [some b][i - a]? = none :=
        List.getElem?_eq_none (by rw [List.length_singleton]; omega)
      rw [hnone]
      rfl
    · rfl

/-- **The write loop stores its data**, and never leaves the memory. -/
theorem storeData_eq (mem : List (Option UInt8)) (addr i : ℕ) (data : Bytes)
    (h : addr + i + data.length ≤ mem.length) :
    ∃ mem', storeData mem addr i data = .ok mem' ∧ mem'.length = mem.length ∧
      contents mem' = overwrite (contents mem) (addr + i) (data.map some) := by
  induction data generalizing mem i with
  | nil => exact ⟨mem, rfl, rfl, (overwrite_nil _ _).symm⟩
  | cons b data ih =>
      rw [List.length_cons] at h
      have hi : addr + i < mem.length := by omega
      obtain ⟨mem', hstore, hlen, hcontents⟩ :=
        ih (mem.set (addr + i) (some b)) (i + 1) (by rw [List.length_set]; omega)
      refine ⟨mem', ?_, by rw [hlen, List.length_set], ?_⟩
      · rw [storeData, if_pos hi, hstore]
      · have happend := overwrite_append (contents mem) (addr + i) [some b] (data.map some)
        rw [hcontents, contents_set b hi, ← Nat.add_assoc]
        exact happend

/-! ### The loop invariant -/

/-- What the variables of the loop hold once the records `rs` are read. -/
structure Holds (rs : List Record) (st : ParseState) : Prop where
  base : st.base.toNat = baseAfter rs
  contents : contents st.mem = overlay (placed rs)
  length : st.mem.length = extent (placed rs)
  extent_le : extent (placed rs) ≤ 0x10000
  sawData : st.sawData = true ↔ placed rs ≠ []
  lowest_le : ∀ p ∈ placed rs, st.lowest.toNat ≤ p.1
  /-- the initial value, or an address -/
  lowest_eq : st.lowest.toNat = 0xFFFFFFFF ∨ ∃ p ∈ placed rs, st.lowest.toNat = p.1

/-- In front of the loop the variables hold no records. -/
theorem holds_start : Holds [] .start where
  base := rfl
  contents := by
    funext a
    simp [IntelHex.contents, ParseState.start, placed]
  length := rfl
  extent_le := Nat.zero_le _
  sawData := by simp [ParseState.start, placed]
  lowest_le := by simp [placed]
  lowest_eq := .inl rfl

/-- A record that places no data changes the base at most. -/
theorem Holds.keep {rs : List Record} {st : ParseState} (h : Holds rs st) {r : Record}
    {base : UInt32} (hr : r.rtype ≠ 0x00) (hbase : base.toNat = baseAfter (rs ++ [r])) :
    Holds (rs ++ [r]) { st with base } := by
  have hplaced : placed (rs ++ [r]) = placed rs := by
    rw [placed_concat, if_neg hr, List.append_nil]
  exact
    { base := hbase
      contents := by rw [hplaced]; exact h.contents
      length := by rw [hplaced]; exact h.length
      extent_le := by rw [hplaced]; exact h.extent_le
      sawData := by rw [hplaced]; exact h.sawData
      lowest_le := by rw [hplaced]; exact h.lowest_le
      lowest_eq := by rw [hplaced]; exact h.lowest_eq }

/-- A record that neither places data nor sets the base changes nothing. -/
theorem Holds.skip {rs : List Record} {st : ParseState} (h : Holds rs st) {r : Record}
    (hr : r.rtype ≠ 0x00) (hsets : r.setsBase = false) : Holds (rs ++ [r]) st :=
  h.keep hr (by rw [baseAfter_concat, hsets]; exact h.base)

/-! ### One record -/

/-- The reader carries an allowed record out, and refuses any other by its line. -/
def Obeys (line : ℕ) (rs : List Record) (r : Record) (st : ParseState) : Prop :=
  (Allowed (baseAfter rs) r ∧
    ∃ st', applyRecord line r st = .ok (some st') ∧ Holds (rs ++ [r]) st') ∨
  (¬ Allowed (baseAfter rs) r ∧
    ∃ e, applyRecord line r st = .error (.error e) ∧ e.line = some line)

section Record

variable {rs : List Record} {st : ParseState} {r : Record}

/-- The sums of a data record do not overflow. -/
theorem applyRecord_data_eq (line : ℕ) (h : Holds rs st) (hr : r.rtype = 0x00) :
    ∃ addr : UInt32, addr.toNat = baseAfter rs + r.offset.toNat ∧
      applyRecord line r st =
        if addr.toNat + r.count.toNat > 0x10000 then
          .error (.error (.addressTooHigh line addr))
        else do
          let mem := if st.mem.length < addr.toNat + r.count.toNat then
            resize st.mem (addr.toNat + r.count.toNat) none else st.mem
          let mem ← storeData mem addr.toNat 0 r.data
          return some { mem, base := st.base, lowest := min st.lowest addr, sawData := true } := by
  have hbase := baseAfter_le rs
  have hoffset := r.offset.toNat_lt
  have hcount := r.count.toNat_lt
  have hsum : st.base.toNat + r.offset.toUInt32.toNat < 2 ^ 32 := by
    rw [h.base, UInt16.toNat_toUInt32]
    omega
  have haddr : (st.base + r.offset.toUInt32).toNat = baseAfter rs + r.offset.toNat := by
    rw [UInt32.toNat_add, Nat.mod_eq_of_lt hsum, h.base, UInt16.toNat_toUInt32]
  have hend : (st.base + r.offset.toUInt32).toNat + r.count.toNat < 2 ^ 32 := by omega
  have hadd : usizeAdd (st.base + r.offset.toUInt32).toNat r.count.toNat =
      (.ok ((st.base + r.offset.toUInt32).toNat + r.count.toNat) : Except (Stop HexError) ℕ) :=
    if_pos hend
  refine ⟨_, haddr, ?_⟩
  rw [applyRecord, if_pos hr, u32Add, if_pos hsum]
  show (usizeAdd (st.base + r.offset.toUInt32).toNat r.count.toNat >>= _) = _
  rw [hadd]
  rfl

/-- The memory grows to the end of the record, and keeps its contents. -/
theorem grow_memory (mem : List (Option UInt8)) (stop : ℕ) :
    (if mem.length < stop then resize mem stop none else mem).length = max mem.length stop ∧
      contents (if mem.length < stop then resize mem stop none else mem) = contents mem := by
  split
  · exact ⟨by rw [length_resize]; omega, contents_resize (by omega)⟩
  · exact ⟨by omega, rfl⟩

/-- The smaller of two words, as a number. -/
theorem toNat_min (a b : UInt32) : (min a b).toNat = min a.toNat b.toNat := by
  show (if a ≤ b then a else b).toNat = _
  split <;> rename_i hle <;> rw [UInt32.le_iff_toNat_le] at hle <;> omega

/-- The variables of the loop once the data of a record is stored. -/
theorem Holds.store (h : Holds rs st) {addr : UInt32} {mem : List (Option UInt8)}
    (hr : r.rtype = 0x00) (haddr : addr.toNat = baseAfter rs + r.offset.toNat)
    (hstop : addr.toNat + r.data.length ≤ 0x10000)
    (hlen : mem.length = max st.mem.length (addr.toNat + r.data.length))
    (hcontents : IntelHex.contents mem =
      overwrite (overlay (placed rs)) addr.toNat (r.data.map some)) :
    Holds (rs ++ [r]) { mem, base := st.base, lowest := min st.lowest addr, sawData := true } := by
  have hplaced : placed (rs ++ [r]) = placed rs ++ [(addr.toNat, r.data)] := by
    rw [placed_concat, if_pos hr, haddr]
  have hsets : r.setsBase = false := by simp [Record.setsBase, hr]
  exact
    { base := by rw [baseAfter_concat, hsets]; exact h.base
      contents := by rw [hplaced, overlay_concat, hcontents]
      length := by rw [hplaced, extent_concat, ← h.length, hlen]
      extent_le := by
        rw [hplaced, extent_concat]
        exact Nat.max_le.mpr ⟨h.extent_le, hstop⟩
      sawData := by simp [hplaced]
      lowest_le := by
        intro p hp
        rw [toNat_min]
        rw [hplaced] at hp
        rcases List.mem_append.mp hp with hp | hp
        · exact Nat.le_trans (Nat.min_le_left _ _) (h.lowest_le p hp)
        · obtain rfl := List.mem_singleton.mp hp
          exact Nat.min_le_right _ _
      lowest_eq := by
        right
        rw [hplaced, toNat_min]
        rcases Nat.le_total st.lowest.toNat addr.toNat with hle | hle
        · rcases h.lowest_eq with hmax | ⟨p, hp, heq⟩
          · omega
          · exact ⟨p, by simp [hp], by rw [Nat.min_eq_left hle, heq]⟩
        · exact ⟨(addr.toNat, r.data), by simp, Nat.min_eq_right hle⟩ }

/-- **A data record** is stored where it ends within 64 KB. -/
theorem applyRecord_data (line : ℕ) (h : Holds rs st) (hr : r.rtype = 0x00) :
    Obeys line rs r st := by
  obtain ⟨addr, haddr, happly⟩ := applyRecord_data_eq line h hr
  rw [Obeys, happly]
  by_cases hhigh : addr.toNat + r.count.toNat > 0x10000
  · rw [if_pos hhigh]
    refine .inr ⟨fun hallowed => ?_, _, rfl, rfl⟩
    have := hallowed.range hr
    omega
  · rw [if_neg hhigh]
    refine .inl ⟨⟨by simp [hr], by simp [hr], by simp [hr], fun _ => by omega⟩, ?_⟩
    dsimp only
    rcases grow_memory st.mem (addr.toNat + r.count.toNat) with ⟨hlen, hcontents⟩
    generalize (if st.mem.length < addr.toNat + r.count.toNat then
      resize st.mem (addr.toNat + r.count.toNat) none else st.mem) = mem at hlen hcontents ⊢
    rw [← r.length_data] at hhigh hlen
    obtain ⟨mem', hstore, hlen', hcontents'⟩ :=
      storeData_eq mem addr.toNat 0 r.data (by omega)
    rw [hstore]
    refine ⟨_, rfl, h.store hr haddr (by omega) (hlen'.trans hlen) ?_⟩
    rw [hcontents', hcontents, h.contents]
    rfl

/-- The two data bytes of a record that sets the base. -/
theorem Record.two_bytes (hcount : r.count = 2) :
    ∃ a b, r.data[0]? = some a ∧ r.data[1]? = some b ∧
      (u16FromBeBytes a b).toUInt32.toNat = r.value := by
  have hlen : r.data.length = 2 := by
    rw [r.length_data, hcount]
    rfl
  match hd : r.data, hlen with
  | [a, b], _ =>
      refine ⟨a, b, rfl, rfl, ?_⟩
      rw [UInt16.toNat_toUInt32, toNat_u16FromBeBytes, Record.value, hd]
      rfl

/-- **An extended segment address record** sets the base to its paragraph. -/
theorem applyRecord_segment (line : ℕ) (h : Holds rs st) (hr : r.rtype = 0x02) :
    Obeys line rs r st := by
  have hne : r.rtype ≠ 0x00 := by simp [hr]
  have hne' : r.rtype ≠ 0x01 := by simp [hr]
  rw [Obeys, applyRecord, if_neg hne, if_neg hne', if_pos hr]
  by_cases hcount : r.count = 2
  · obtain ⟨a, b, ha, hb, hvalue⟩ := r.two_bytes hcount
    rw [if_neg (not_not.mpr hcount), ha, hb]
    refine .inl ⟨⟨by simp [hr], fun _ => hcount, by simp [hr], by simp [hr]⟩, _, rfl, ?_⟩
    refine h.keep hne ?_
    have hlt := r.value_lt
    rw [baseAfter_concat, if_pos (by simp [Record.setsBase, hr]), Record.newBase, if_pos hr,
      UInt32.toNat_shiftLeft, hvalue, Nat.shiftLeft_eq]
    simp only [UInt32.reduceToNat, Nat.reduceMod, Nat.reducePow]
    omega
  · rw [if_pos hcount]
    exact .inr ⟨fun hallowed => hcount (hallowed.count (.inl hr)), _, rfl, rfl⟩

/-- **An extended linear address record** sets the base to zero, and is refused where that is
not what it says. -/
theorem applyRecord_linear (line : ℕ) (h : Holds rs st) (hr : r.rtype = 0x04) :
    Obeys line rs r st := by
  have hne : r.rtype ≠ 0x00 := by simp [hr]
  have hne' : r.rtype ≠ 0x01 := by simp [hr]
  have hne'' : r.rtype ≠ 0x02 := by simp [hr]
  rw [Obeys, applyRecord, if_neg hne, if_neg hne', if_neg hne'', if_pos hr]
  by_cases hcount : r.count = 2
  · obtain ⟨a, b, ha, hb, hvalue⟩ := r.two_bytes hcount
    rw [if_neg (not_not.mpr hcount), ha, hb]
    by_cases hzero : (u16FromBeBytes a b).toUInt32 = 0
    · have hvalue' : r.value = 0 := by rw [← hvalue, hzero]; rfl
      refine .inl ⟨⟨by simp [hr], fun _ => hcount, fun _ => hvalue', by simp [hr]⟩, _,
        if_neg (not_not.mpr hzero), h.keep hne ?_⟩
      rw [baseAfter_concat, if_pos (by simp [Record.setsBase, hr]), Record.newBase, if_neg hne'']
      rfl
    · refine .inr ⟨fun hallowed => hzero ?_, _, if_pos hzero, rfl⟩
      exact UInt32.toNat_inj.mp (hvalue.trans (hallowed.value hr))
  · rw [if_pos hcount]
    exact .inr ⟨fun hallowed => hcount (hallowed.count (.inr hr)), _, rfl, rfl⟩

/-- Records of the other types change nothing, or are not supported. -/
theorem applyRecord_other (line : ℕ) (h : Holds rs st) (h0 : r.rtype ≠ 0x00)
    (h1 : r.rtype ≠ 0x01) (h2 : r.rtype ≠ 0x02) (h4 : r.rtype ≠ 0x04) : Obeys line rs r st := by
  rw [Obeys, applyRecord, if_neg h0, if_neg h1, if_neg h2, if_neg h4]
  by_cases h35 : r.rtype = 0x03 ∨ r.rtype = 0x05
  · rw [if_pos h35]
    refine .inl ⟨⟨?_, by simp [h2, h4], by simp [h4], by simp [h0]⟩, _, rfl, ?_⟩
    · rcases h35 with h | h <;> simp [h]
    · exact h.skip h0 (by simp [Record.setsBase, h2, h4])
  · rw [if_neg h35]
    refine .inr ⟨fun hallowed => ?_, _, rfl, rfl⟩
    have := hallowed.rtype
    simp only [List.mem_cons, List.not_mem_nil, or_false] at this
    tauto

/-- Every record but the end-of-file record is carried out or refused. -/
theorem applyRecord_obeys (line : ℕ) (r : Record) (h : Holds rs st) (h1 : r.rtype ≠ 0x01) :
    Obeys line rs r st := by
  by_cases h0 : r.rtype = 0x00
  · exact applyRecord_data line h h0
  by_cases h2 : r.rtype = 0x02
  · exact applyRecord_segment line h h2
  by_cases h4 : r.rtype = 0x04
  · exact applyRecord_linear line h h4
  exact applyRecord_other line h h0 h1 h2 h4

/-- **What the reader does with a record**: it carries an allowed record out, and leaves the
loop at the end-of-file record; one that is not allowed is refused by its line. -/
theorem applyRecord_cases (line : ℕ) (r : Record) (h : Holds rs st) :
    (Allowed (baseAfter rs) r ∧
      (r.rtype = 0x01 ∧ applyRecord line r st = .ok none ∧ Holds (rs ++ [r]) st ∨
        r.rtype ≠ 0x01 ∧
          ∃ st', applyRecord line r st = .ok (some st') ∧ Holds (rs ++ [r]) st')) ∨
    (¬ Allowed (baseAfter rs) r ∧
      ∃ e, applyRecord line r st = .error (.error e) ∧ e.line = some line) := by
  by_cases h1 : r.rtype = 0x01
  · have h0 : r.rtype ≠ 0x00 := by simp [h1]
    refine .inl ⟨⟨by simp [h1], by simp [h1], by simp [h1], by simp [h1]⟩, .inl ⟨h1, ?_, ?_⟩⟩
    · rw [applyRecord, if_neg h0, if_pos h1]
    · exact h.skip h0 (by simp [Record.setsBase, h1])
  · rcases applyRecord_obeys line r h h1 with ⟨hallowed, hst⟩ | hrefused
    · exact .inl ⟨hallowed, .inr ⟨h1, hst⟩⟩
    · exact .inr hrefused

end Record

/-! ### The lines of a text -/

/-- Records that follow `rs` are allowed at their places. -/
def AllowedFrom (rs new : List Record) : Prop :=
  ∀ i r, new[i]? = some r → Allowed (baseAfter (rs ++ new.take i)) r

/-- Behind the records `rs`, the line at position `k` is the first bad one: not blank, and no
record allowed at its place. -/
def BadFrom (rs : List Record) (ls : List (List Char)) (k : ℕ) : Prop :=
  ∃ raw new, ls[k]? = some raw ∧ trim raw ≠ [] ∧ Listed (ls.take k) new ∧
    (∀ r ∈ new, r.rtype ≠ 0x01) ∧ AllowedFrom rs new ∧
    ¬ ∃ r, RecordLine (trim raw) r ∧ Allowed (baseAfter (rs ++ new)) r

/-- No record is always allowed. -/
theorem allowedFrom_nil (rs : List Record) : AllowedFrom rs [] := by
  intro i r hr
  simp at hr

/-- A record that is allowed, and what is allowed behind it. -/
theorem AllowedFrom.cons {rs new : List Record} {r : Record} (hr : Allowed (baseAfter rs) r)
    (h : AllowedFrom (rs ++ [r]) new) : AllowedFrom rs (r :: new) := by
  intro i r' hr'
  match i with
  | 0 =>
      rw [List.getElem?_cons_zero, Option.some.injEq] at hr'
      subst hr'
      simpa using hr
  | i + 1 =>
      have := h i r' hr'
      rwa [List.append_assoc, List.singleton_append] at this

/-- A blank line in front moves the bad line one further. -/
theorem BadFrom.blank {rs : List Record} {raw : List Char} {ls : List (List Char)} {k : ℕ}
    (hblank : trim raw = []) (h : BadFrom rs ls k) : BadFrom rs (raw :: ls) (k + 1) := by
  obtain ⟨raw', new, hk, hne, hlisted, heof, hallowed, hbad⟩ := h
  exact ⟨raw', new, hk, hne, .blank hblank hlisted, heof, hallowed, hbad⟩

/-- A record in front that is allowed moves the bad line one further. -/
theorem BadFrom.record {rs : List Record} {raw : List Char} {ls : List (List Char)} {k : ℕ}
    {r : Record} (hr : RecordLine (trim raw) r) (hne : r.rtype ≠ 0x01)
    (hallow : Allowed (baseAfter rs) r) (h : BadFrom (rs ++ [r]) ls k) :
    BadFrom rs (raw :: ls) (k + 1) := by
  obtain ⟨raw', new, hk, hne', hlisted, heof, hallowed, hbad⟩ := h
  refine ⟨raw', r :: new, hk, hne', .record hr hne hlisted, ?_, hallowed.cons hallow, ?_⟩
  · intro r' hr'
    rcases List.mem_cons.mp hr' with rfl | hr'
    · exact hne
    · exact heof r' hr'
  · rwa [List.append_assoc, List.singleton_append] at hbad

section Loop

variable {line idx : ℕ} {raw : List Char} {ls : List (List Char)} {st st' : ParseState}
  {r : Record} {e : HexError}

/-- A blank line changes nothing. -/
theorem parseLine_of_blank (h : trim raw = []) : parseLine line raw st = .ok (some st) := by
  rw [parseLine, h]
  rfl

/-- A line with a record is carried out. -/
theorem parseLine_of_record (hne : trim raw ≠ []) (h : readRecord line (trim raw) = .ok r) :
    parseLine line raw st = applyRecord line r st := by
  rw [parseLine, if_neg (by simpa using hne), h]
  rfl

/-- A line without one ends the reading. -/
theorem parseLine_of_error (hne : trim raw ≠ [])
    (h : readRecord line (trim raw) = .error (.error e)) :
    parseLine line raw st = .error (.error e) := by
  rw [parseLine, if_neg (by simpa using hne), h]
  rfl

/-- A line that goes on leaves the rest to the lines behind it. -/
theorem parseLines_of_next (h : parseLine (idx + 1) raw st = .ok (some st')) :
    parseLines idx (raw :: ls) st = parseLines (idx + 1) ls st' := by
  rw [parseLines, h]
  rfl

/-- A line that ends the file leaves the variables as they are. -/
theorem parseLines_of_break (h : parseLine (idx + 1) raw st = .ok none) :
    parseLines idx (raw :: ls) st = .ok st := by
  rw [parseLines, h]
  rfl

/-- A line in error is the error of the text. -/
theorem parseLines_of_error (h : parseLine (idx + 1) raw st = .error (.error e)) :
    parseLines idx (raw :: ls) st = .error (.error e) := by
  rw [parseLines, h]
  rfl

end Loop

/-- **What the loop does with a list of lines**: it reads the records they list, if each is
allowed at its place, and else stops with the number of the first bad line. -/
theorem parseLines_cases {rs : List Record} {st : ParseState} (h : Holds rs st) (idx : ℕ)
    (ls : List (List Char)) :
    (∃ new st', parseLines idx ls st = .ok st' ∧ Listed ls new ∧ AllowedFrom rs new ∧
      Holds (rs ++ new) st') ∨
    ∃ k e, parseLines idx ls st = .error (.error e) ∧ e.line = some (idx + k + 1) ∧
      BadFrom rs ls k := by
  induction ls generalizing rs st idx with
  | nil => exact .inl ⟨[], st, rfl, .nil, allowedFrom_nil rs, by rwa [List.append_nil]⟩
  | cons raw ls ih =>
      by_cases hblank : trim raw = []
      · rw [parseLines_of_next (parseLine_of_blank hblank)]
        obtain ⟨new, st', hok, hlisted, hallowed, hholds⟩ | ⟨k, e, herr, hline, hbad⟩ :=
          ih h (idx + 1)
        · exact .inl ⟨new, st', hok, .blank hblank hlisted, hallowed, hholds⟩
        · exact .inr ⟨k + 1, e, herr, by rw [hline]; congr 1; omega, hbad.blank hblank⟩
      obtain ⟨r, hread, hr⟩ | ⟨⟨e, hread, hline⟩, hno⟩ := readRecord_cases (idx + 1) (trim raw)
      · obtain ⟨hallow, ⟨heof, happly, hholds⟩ | ⟨hne, st', happly, hholds⟩⟩ |
          ⟨hrefuse, e, happly, hline⟩ := applyRecord_cases (idx + 1) r h
        · refine .inl ⟨[r], st, ?_, .last hr heof, (allowedFrom_nil _).cons hallow, hholds⟩
          exact parseLines_of_break ((parseLine_of_record hblank hread).trans happly)
        · rw [parseLines_of_next ((parseLine_of_record hblank hread).trans happly)]
          obtain ⟨new, st'', hok, hlisted, hallowed, hholds'⟩ | ⟨k, e, herr, hline, hbad⟩ :=
            ih hholds (idx + 1)
          · refine .inl ⟨r :: new, st'', hok, .record hr hne hlisted, hallowed.cons hallow, ?_⟩
            rwa [List.append_assoc, List.singleton_append] at hholds'
          · exact .inr ⟨k + 1, e, herr, by rw [hline]; congr 1; omega, hbad.record hr hne hallow⟩
        · refine .inr ⟨0, e, ?_, hline, raw, [], rfl, hblank, .nil, by simp,
            allowedFrom_nil rs, ?_⟩
          · exact parseLines_of_error ((parseLine_of_record hblank hread).trans happly)
          · rintro ⟨r', hr', hallow⟩
            rw [List.append_nil, hr'.unique hr] at hallow
            exact hrefuse hallow
      · refine .inr ⟨0, e, parseLines_of_error (parseLine_of_error hblank hread), hline, raw, [],
          rfl, hblank, .nil, by simp, allowedFrom_nil rs, ?_⟩
        rintro ⟨r, hr, -⟩
        exact hno ⟨r, hr⟩

/-! ### The records of a text are determined -/

/-- A record line is not empty. -/
theorem RecordLine.ne_nil {s : List Char} {r : Record} (h : RecordLine s r) : s ≠ [] := by
  obtain ⟨_, _, rfl, -⟩ := h
  simp

/-- Blank lines list no records. -/
theorem listed_of_blank {ls : List (List Char)} (h : ∀ raw ∈ ls, trim raw = []) :
    Listed ls [] := by
  induction ls with
  | nil => exact .nil
  | cons raw ls ih =>
      exact .blank (h raw (List.mem_cons_self ..)) (ih fun l hl => h l (List.mem_cons_of_mem _ hl))

/-- The records of some lines begin with those of the first of them. -/
theorem Listed.split {ls₁ ls₂ : List (List Char)} {rs all : List Record} (h : Listed ls₁ rs)
    (heof : ∀ r ∈ rs, r.rtype ≠ 0x01) (hall : Listed (ls₁ ++ ls₂) all) :
    ∃ tail, all = rs ++ tail ∧ Listed ls₂ tail := by
  induction h generalizing all with
  | nil => exact ⟨all, rfl, hall⟩
  | blank hblank _ ih =>
      cases hall with
      | blank _ hall => exact ih heof hall
      | record hr _ _ => exact absurd hblank hr.ne_nil
      | last hr _ => exact absurd hblank hr.ne_nil
  | record hr _ _ ih =>
      cases hall with
      | blank hblank _ => exact absurd hblank hr.ne_nil
      | record hr' _ hall =>
          obtain ⟨tail, rfl, htail⟩ := ih (fun r hr => heof r (List.mem_cons_of_mem _ hr)) hall
          exact ⟨tail, by rw [hr.unique hr', List.cons_append], htail⟩
      | last hr' heof' =>
          exact absurd (hr.unique hr' ▸ heof') (heof _ (List.mem_cons_self ..))
  | last _ heof' => exact absurd heof' (heof _ (List.mem_cons_self ..))

/-- Lines list one list of records only. -/
theorem Listed.unique {ls : List (List Char)} {rs rs' : List Record} (h : Listed ls rs)
    (h' : Listed ls rs') : rs = rs' := by
  induction h generalizing rs' with
  | nil =>
      cases h'
      rfl
  | blank hblank _ ih =>
      cases h' with
      | blank _ h' => exact ih h'
      | record hr _ _ => exact absurd hblank hr.ne_nil
      | last hr _ => exact absurd hblank hr.ne_nil
  | record hr hne _ ih =>
      cases h' with
      | blank hblank _ => exact absurd hblank hr.ne_nil
      | record hr' _ h' => rw [hr.unique hr', ih h']
      | last hr' heof => exact absurd (hr.unique hr' ▸ heof) hne
  | last hr heof =>
      cases h' with
      | blank hblank _ => exact absurd hblank hr.ne_nil
      | record hr' hne _ => exact absurd (hr.unique hr' ▸ heof) hne
      | last hr' _ => rw [hr.unique hr']

/-- Where a line is bad, not all records are allowed. -/
theorem BadFrom.not_allowedFrom {rs all : List Record} {ls : List (List Char)} {k : ℕ}
    (h : BadFrom rs ls k) (hall : Listed ls all) : ¬ AllowedFrom rs all := by
  obtain ⟨raw, new, hk, hne, hnew, heof, -, hbad⟩ := h
  intro hallowed
  rw [← List.take_append_drop k ls] at hall
  obtain ⟨tail, rfl, htail⟩ := hnew.split heof hall
  have hdrop : ls.drop k = raw :: ls.drop (k + 1) := by
    obtain ⟨hlt, rfl⟩ := List.getElem?_eq_some_iff.mp hk
    exact List.drop_eq_getElem_cons hlt
  have hnext : ∃ r tail', RecordLine (trim raw) r ∧ tail = r :: tail' := by
    rw [hdrop] at htail
    cases htail with
    | blank hblank _ => exact absurd hblank hne
    | record hr _ _ => exact ⟨_, _, hr, rfl⟩
    | last hr _ => exact ⟨_, _, hr, rfl⟩
  obtain ⟨r, tail', hr, rfl⟩ := hnext
  have hat := hallowed new.length r (by simp)
  rw [List.take_left' rfl] at hat
  exact hbad ⟨r, hr, hat⟩

/-- No bad line comes behind the first one. -/
theorem BadFrom.le {rs : List Record} {ls : List (List Char)} {k k' : ℕ} (h : BadFrom rs ls k)
    (h' : BadFrom rs ls k') : k' ≤ k := by
  by_contra hlt
  obtain ⟨_, new', _, _, hnew', _, hallowed', _⟩ := h'
  obtain ⟨raw, new, hk, hne, hnew, heof, hallowed, hbad⟩ := h
  have hbefore : BadFrom rs (ls.take k') k := by
    refine ⟨raw, new, ?_, hne, ?_, heof, hallowed, hbad⟩
    · rw [List.getElem?_take, if_pos (by omega), hk]
    · rwa [List.take_take, Nat.min_eq_left (by omega)]
  exact hbefore.not_allowedFrom hnew' hallowed'

/-- There is one first bad line at most. -/
theorem BadFrom.unique {rs : List Record} {ls : List (List Char)} {k k' : ℕ} (h : BadFrom rs ls k)
    (h' : BadFrom rs ls k') : k = k' :=
  Nat.le_antisymm (h'.le h) (h.le h')

/-! ### The whole text -/

/-- The image in the memory of the loop. -/
def ParseState.image (st : ParseState) : Image :=
  { bytes := st.mem.map fun b => b.getD 0x00
    lowestAddr := st.lowest
    gapBytes := (st.mem.filter Option.isNone).length }

/-- What is left to do behind the loop: a text without data is refused. -/
theorem parse_of_lines {text : List Char} {rs : List Record} {st : ParseState}
    (hblank : trim text ≠ []) (h : parseLines 0 (lines text) .start = .ok st)
    (hholds : Holds rs st) :
    parse text =
      if 0 < extent (placed rs) then .ok st.image else .error (.error .noData) := by
  have hfinish : parse text =
      if !st.sawData || st.mem.isEmpty then .error (.error .noData) else .ok st.image := by
    rw [parse, if_neg (by simpa using hblank), h]
    rfl
  rw [hfinish]
  by_cases hpos : 0 < extent (placed rs)
  · have hmem : st.mem ≠ [] := List.ne_nil_of_length_pos (by rwa [hholds.length])
    have hsaw : st.sawData = true := hholds.sawData.mpr fun hnil => by simp [hnil] at hpos
    rw [if_pos hpos, if_neg (by simp [hsaw, hmem])]
  · have hmem : st.mem = [] := List.eq_nil_of_length_eq_zero (by rw [hholds.length]; omega)
    rw [if_neg hpos, if_pos (by simp [hmem])]

/-- **The outcomes of the reader**: the image of the records, no data, or the number of the
first bad line. -/
theorem parse_cases (text : List Char) :
    (∃ rs, Listed (lines text) rs ∧ AllowedFrom [] rs ∧
      ((0 < extent (placed rs) ∧ ∃ st, Holds rs st ∧ parse text = .ok st.image) ∨
        (extent (placed rs) = 0 ∧ ∃ e, parse text = .error (.error e) ∧ e.line = none))) ∨
    ∃ k e, BadFrom [] (lines text) k ∧ parse text = .error (.error e) ∧
      e.line = some (k + 1) := by
  by_cases hblank : trim text = []
  · refine .inl ⟨[], listed_of_blank fun raw hraw => ?_, allowedFrom_nil [], .inr ⟨rfl, .empty, ?_,
      rfl⟩⟩
    · rw [trim_eq_nil_iff] at hblank ⊢
      exact fun c hc => hblank c (mem_of_mem_lines hraw hc)
    · rw [parse, if_pos (by simp [hblank])]
  rcases parseLines_cases holds_start 0 (lines text) with
    ⟨rs, st, hok, hlisted, hallowed, hholds⟩ | ⟨k, e, herr, hline, hbad⟩
  · rw [List.nil_append] at hholds
    have hparse := parse_of_lines hblank hok hholds
    refine .inl ⟨rs, hlisted, hallowed, ?_⟩
    by_cases hpos : 0 < extent (placed rs)
    · rw [if_pos hpos] at hparse
      exact .inl ⟨hpos, st, hholds, hparse⟩
    · rw [if_neg hpos] at hparse
      exact .inr ⟨by omega, .noData, hparse, rfl⟩
  · refine .inr ⟨k, e, hbad, ?_, by rw [hline, Nat.zero_add]⟩
    rw [parse, if_neg (by simpa using hblank), herr]
    rfl

/-! ### The image -/

/-- The image is that of blocks laid over each other, in this order. -/
structure IsImage (ps : List (Block UInt8)) (img : Image) : Prop where
  length_pos : 1 ≤ img.bytes.length
  length_le : img.bytes.length ≤ 0x10000
  /-- the end of one of the blocks -/
  length_eq : ∃ p ∈ ps, img.bytes.length = p.1 + p.2.length
  le_length : ∀ p ∈ ps, p.1 + p.2.length ≤ img.bytes.length
  /-- the last block that covers an address is seen there -/
  covered : ∀ ps₁ p ps₂ a, ps = ps₁ ++ p :: ps₂ → Covers p a → (∀ q ∈ ps₂, ¬ Covers q a) →
    img.bytes[a]? = p.2[a - p.1]?
  uncovered : ∀ a < img.bytes.length, (∀ p ∈ ps, ¬ Covers p a) → img.bytes[a]? = some 0x00
  gapBytes : img.gapBytes =
    (List.range img.bytes.length).countP fun a => decide (∀ p ∈ ps, ¬ Covers p a)
  /-- the address of one of the blocks -/
  lowest_eq : ∃ p ∈ ps, img.lowestAddr.toNat = p.1
  lowest_le : ∀ p ∈ ps, img.lowestAddr.toNat ≤ p.1

/-- The memory, address by address. -/
theorem map_contents (mem : List (Option UInt8)) :
    (List.range mem.length).map (contents mem) = mem := by
  apply List.ext_getElem
  · simp
  · intro a h _
    rw [List.length_map, List.length_range] at h
    simp [contents, h]

section Image

variable {rs : List Record} {st : ParseState}

/-- **Each byte of the image** is what the last record for its address says, or zero. -/
theorem Holds.getElem?_image (h : Holds rs st) {a : ℕ} (ha : a < st.image.bytes.length) :
    st.image.bytes[a]? = some ((overlay (placed rs) a).getD 0x00) := by
  have hlt : a < st.mem.length := by rwa [ParseState.image, List.length_map] at ha
  have hcontents : IntelHex.contents st.mem a = st.mem[a] := by
    simp [IntelHex.contents, hlt]
  rw [ParseState.image, List.getElem?_map, List.getElem?_eq_getElem hlt, ← hcontents, h.contents]
  rfl

/-- **The gaps that are counted** are the addresses that no record covers. -/
theorem Holds.gapBytes_image (h : Holds rs st) :
    st.image.gapBytes = (List.range st.image.bytes.length).countP fun a =>
      decide (∀ p ∈ placed rs, ¬ Covers p a) := by
  rw [ParseState.image, List.length_map, ← List.countP_eq_length_filter]
  conv_lhs => rw [← map_contents st.mem, List.countP_map]
  apply List.countP_congr
  intro a _
  rw [Function.comp_apply, h.contents, Option.isNone_iff_eq_none, decide_eq_true_iff,
    overlay_eq_none_iff]

/-- **The memory behind the loop holds the image of the records.** -/
theorem Holds.isImage (h : Holds rs st) (hpos : 0 < extent (placed rs)) :
    IsImage (placed rs) st.image := by
  have hlen : st.image.bytes.length = extent (placed rs) := by
    rw [ParseState.image, List.length_map, h.length]
  obtain ⟨p, hp, hext⟩ := extent_eq hpos
  exact
    { length_pos := by omega
      length_le := by rw [hlen]; exact h.extent_le
      length_eq := ⟨p, hp, by rw [hlen, hext]⟩
      le_length := fun q hq => by rw [hlen]; exact le_extent hq
      covered := by
        intro ps₁ p ps₂ a hps hcover hlater
        have hin : p ∈ placed rs := by simp [hps]
        have ha : a < st.image.bytes.length := by
          have := le_extent hin
          have := hcover.2
          omega
        have hvalue : overlay (placed rs) a = p.2[a - p.1]? := by
          rw [hps]
          exact overlay_of_last hcover hlater
        have hoff : a - p.1 < p.2.length := by
          have := hcover.1
          have := hcover.2
          omega
        rw [h.getElem?_image ha, hvalue, List.getElem?_eq_getElem hoff, Option.getD_some]
      uncovered := by
        intro a ha hnone
        rw [h.getElem?_image ha, overlay_eq_none_iff.mpr hnone, Option.getD_none]
      gapBytes := h.gapBytes_image
      lowest_eq := by
        rcases h.lowest_eq with hmax | hmin
        · have hlow := h.lowest_le p hp
          have := h.extent_le
          omega
        · exact hmin
      lowest_le := h.lowest_le }

end Image

/-- **The image of a text** is that of its data records up to the first end-of-file record,
laid over each other in the order of the text. -/
theorem parse_overlay (text : List Char) (img : Image) (h : parse text = .ok img) :
    (∃ rs, Listed (lines text) rs) ∧
      ∀ rs, Listed (lines text) rs → IsImage (placed rs) img := by
  rcases parse_cases text with
    ⟨rs, hlisted, -, ⟨hpos, st, hholds, hparse⟩ | ⟨-, e, hparse, -⟩⟩ | ⟨k, e, -, hparse, -⟩
  · rw [hparse] at h
    cases h
    refine ⟨⟨rs, hlisted⟩, fun rs' hlisted' => ?_⟩
    rw [hlisted'.unique hlisted]
    exact hholds.isImage hpos
  · rw [hparse] at h
    cases h
  · rw [hparse] at h
    cases h

/-- Two records with a gap between them. -/
theorem parse_overlay_gap :
    ∃ text img, parse text = .ok img ∧ img.bytes = [0xAA, 0, 0, 0, 0, 0x55] ∧ img.gapBytes = 4 ∧
      (∃ rs, Listed (lines text) rs) ∧
      ∀ rs, Listed (lines text) rs → IsImage (placed rs) img := by
  have hparse : parse ":01000000AA55\n:0100050055A5\n:00000001FF\n".toList =
      .ok { bytes := [0xAA, 0, 0, 0, 0, 0x55], lowestAddr := 0, gapBytes := 4 } := by
    decide +kernel
  exact ⟨_, _, hparse, rfl, rfl, parse_overlay _ _ hparse⟩

end IntelHex

end Stcbsl
