import FiniteStateEntropy.Stream.Plain
import Mathlib.Data.Nat.Digits.Defs
import Mathlib.Data.Nat.Notation

/-!
# The containers as bit lists

The writer and the reader are seen through the bits they have written and have still to read, and
this file says when their operations succeed and what they do to those bits. From here on a
container is a bit list, and how full it is matters to nobody but the writer's caller.

A stream is a bit list with an end mark on top, cut into bytes. Cutting and marking lose nothing:
`unmark_toBytes` gets back the bits below the mark, and `Reader.map_unreadBits_ofBytes` says that a
new reader stands exactly there.

## Main results

* `Bits.ofBytes_injective`, `Bits.eq_append_toBytes`: bytes are known by their bits
* `Bits.ofDigits_toBytes`: bytes are the digits of the number that their bits spell
* `Writer.exists_add`: a field that fits is appended
* `Stream.Plain.unmark_toBytes`: the bits below the end mark
* `Reader.map_unreadBits_ofBytes`: a new reader stands below the end mark
* `Reader.read_of_le`, `Reader.read_of_lt`: reading takes bits from the front, or leaves them all
-/

namespace FiniteStateEntropy

namespace Bits

/-! ### Bytes and their bits -/

theorem low_injective {width v w : ℕ} (hv : v < 2 ^ width) (hw : w < 2 ^ width)
    (h : low width v = low width w) : v = w := by
  rw [← Nat.mod_eq_of_lt hv, ← Nat.mod_eq_of_lt hw, ← value_low, ← value_low, h]

theorem ofBytes_injective {xs ys : List UInt8} (h : ofBytes xs = ofBytes ys) : xs = ys := by
  induction xs generalizing ys with
  | nil =>
    have hlength := congrArg List.length h
    rw [length_ofBytes, length_ofBytes, List.length_nil] at hlength
    exact (List.eq_nil_of_length_eq_zero (by omega)).symm
  | cons x xs ih =>
    cases ys with
    | nil =>
      have hlength := congrArg List.length h
      rw [length_ofBytes, length_ofBytes, List.length_nil, List.length_cons] at hlength
      omega
    | cons y ys =>
      rw [ofBytes_cons, ofBytes_cons] at h
      obtain ⟨hbyte, hrest⟩ := List.append_inj h (by rw [length_low, length_low])
      rw [UInt8.toNat.inj (low_injective x.toNat_lt y.toNat_lt hbyte), ih hrest]

/-- A byte made of up to eight bits has these bits, and zeros on top. -/
theorem low_value_toUInt8 {bits : List Bool} (h : bits.length ≤ 8) :
    low 8 (value bits).toUInt8.toNat = bits ++ List.replicate (8 - bits.length) false := by
  have hlt : value bits < 2 ^ 8 :=
    Nat.lt_of_lt_of_le (value_lt bits) (Nat.pow_le_pow_right (by decide) h)
  have hbyte : (value bits).toUInt8.toNat = value bits := by
    rw [Nat.toUInt8_eq, UInt8.toNat_ofNat']
    exact Nat.mod_eq_of_lt hlt
  have hsplit := low_add bits.length (8 - bits.length) (value bits)
  rw [Nat.add_sub_cancel' h] at hsplit
  rw [hbyte, hsplit, low_value, Nat.div_eq_of_lt (value_lt bits), low_of_zero]

/-- Cutting into bytes fills up with zeros to a whole number of bytes. -/
theorem ofBytes_toBytes (bits : List Bool) :
    ∃ fill < 8, ofBytes (toBytes bits) = bits ++ List.replicate fill false := by
  fun_induction toBytes bits with
  | case1 => exact ⟨0, by decide, rfl⟩
  | case2 bit rest ih =>
    rw [ofBytes_cons, low_value_toUInt8 (List.length_take_le 8 _)]
    by_cases hfull : 8 ≤ (bit :: rest).length
    · obtain ⟨fill, hfill, hbits⟩ := ih
      refine ⟨fill, hfill, ?_⟩
      rw [hbits, List.length_take_of_le hfull, Nat.sub_self, List.replicate_zero, List.append_nil,
        ← List.append_assoc, List.take_append_drop]
    · refine ⟨8 - (bit :: rest).length, by rw [List.length_cons]; omega, ?_⟩
      rw [List.take_of_length_le (by omega), List.drop_eq_nil_of_le (by omega), toBytes,
        ofBytes_nil, List.append_nil]

/-- **Bytes are known by their bits**: what spells `bits` behind `out`, up to a partial byte of
zeros, is `out` with the bits cut into bytes. -/
theorem eq_append_toBytes {bytes out : List UInt8} {bits : List Bool} {fill : ℕ} (hfill : fill < 8)
    (h : ofBytes bytes = ofBytes out ++ bits ++ List.replicate fill false) :
    bytes = out ++ toBytes bits := by
  obtain ⟨fill', hfill', hbits⟩ := ofBytes_toBytes bits
  -- both fillings end at a byte, and neither is a whole byte long
  obtain rfl : fill = fill' := by
    have hlength := congrArg List.length h
    have hlength' := congrArg List.length hbits
    simp only [length_ofBytes, List.length_append, List.length_replicate] at hlength hlength'
    omega
  apply ofBytes_injective
  rw [h, ofBytes_append, hbits, List.append_assoc]

/-- The highest set bit of a number, with zeros above it. -/
theorem low_eq_append_true {width v : ℕ} (hv : v ≠ 0) (h : v.log2 < width) :
    low width v = low v.log2 v ++ true :: List.replicate (width - 1 - v.log2) false := by
  have htop : v / 2 ^ v.log2 = 1 := by
    refine (Nat.div_eq_iff (Nat.two_pow_pos _)).mpr ?_
    have hself := Nat.log2_self_le hv
    have hlt := Nat.lt_log2_self (n := v)
    rw [Nat.pow_succ] at hlt
    omega
  have hsplit := low_add v.log2 (width - 1 - v.log2 + 1) v
  rw [show v.log2 + (width - 1 - v.log2 + 1) = width by omega, htop, low,
    show 1 / 2 = 0 from rfl, low_of_zero] at hsplit
  exact hsplit

/-! ### Bytes as digits -/

theorem value_append (xs ys : List Bool) :
    value (xs ++ ys) = value xs + 2 ^ xs.length * value ys := by
  induction xs with
  | nil => rw [List.nil_append, value, List.length_nil, Nat.pow_zero, Nat.zero_add, Nat.one_mul]
  | cons bit xs ih =>
    rw [List.cons_append, value, value, ih, List.length_cons, Nat.pow_succ', Nat.mul_add,
      ← Nat.add_assoc, Nat.mul_assoc]

theorem value_replicate_false (n : ℕ) : value (List.replicate n false) = 0 := by
  rw [← low_of_zero, value_low, Nat.zero_mod]

/-- Bytes are the digits of the number that their bits spell. -/
theorem ofDigits_map_toNat (bytes : List UInt8) :
    Nat.ofDigits 256 (bytes.map UInt8.toNat) = value (ofBytes bytes) := by
  induction bytes with
  | nil => rfl
  | cons byte bytes ih =>
    rw [List.map_cons, Nat.ofDigits_cons, ih, ofBytes_cons, value_append, value_low, length_low,
      Nat.mod_eq_of_lt byte.toNat_lt]
    rfl

/-- Cutting into bytes keeps the number. -/
theorem ofDigits_toBytes (bits : List Bool) :
    Nat.ofDigits 256 ((toBytes bits).map UInt8.toNat) = value bits := by
  obtain ⟨fill, -, hbits⟩ := ofBytes_toBytes bits
  rw [ofDigits_map_toNat, hbits, value_append, value_replicate_false, Nat.mul_zero, Nat.add_zero]

theorem length_toBytes (bits : List Bool) : (toBytes bits).length = (bits.length + 7) / 8 := by
  obtain ⟨fill, hfill, hbits⟩ := ofBytes_toBytes bits
  have hlength := congrArg List.length hbits
  rw [length_ofBytes, List.length_append, List.length_replicate] at hlength
  omega

end Bits

namespace Writer

/-! ### Writing -/

/-- **A field that fits is appended.** -/
theorem exists_add {writer : Writer} {width : ℕ} (value : ℕ) (hwidth : width ≤ fieldWidthLimit)
    (hheld : writer.held < containerBits) (hroom : writer.held + width ≤ containerBits) :
    ∃ next, writer.add value width = .ok next ∧ next.bits = writer.bits ++ Bits.low width value ∧
      next.held = writer.held + width := by
  have hadd : ∃ next, writer.add value width = .ok next ∧ next.held = writer.held + width := by
    rw [add, dif_pos ⟨hwidth, hheld, hroom⟩]
    exact ⟨_, rfl, rfl⟩
  obtain ⟨next, hnext, hlive⟩ := hadd
  exact ⟨next, hnext, bits_add hnext, hlive⟩

/-- The bytes of a finished writer are the bits it was given, cut into bytes. -/
theorem toList_finish {writer : Writer} {out : List UInt8} {bits : List Bool}
    (h : writer.bits = Bits.ofBytes out ++ bits) :
    writer.finish.toList = out ++ Bits.toBytes bits := by
  obtain ⟨fill, hfill, hbits⟩ := ofBytes_finish writer
  exact Bits.eq_append_toBytes hfill (by rw [hbits, h])

end Writer

namespace Stream.Plain

/-! ### The end mark -/

/-- The bits below the highest set bit, whatever zeros lie above. -/
theorem unmark_of_ofBytes_eq {stream : List UInt8} {bits : List Bool} {fill : ℕ} (hfill : fill < 8)
    (h : Bits.ofBytes stream = bits ++ true :: List.replicate fill false) :
    unmark stream = .ok bits.reverse := by
  have hreverse : (Bits.ofBytes stream).reverse =
      List.replicate fill false ++ true :: bits.reverse := by
    simp [h]
  have hmark : stream.getLast?.getD 0 ≠ 0 := by
    intro hlast
    rcases List.eq_nil_or_concat stream with rfl | ⟨before, last, rfl⟩
    · simp at h
    · obtain rfl : last = 0 := by simpa using hlast
      rw [List.concat_eq_append] at hreverse
      have hzero : (Bits.ofBytes (before ++ [0])).reverse =
          List.replicate 8 false ++ (Bits.ofBytes before).reverse := by
        simp
      have hbit := congrArg (·[fill]?) (hzero.symm.trans hreverse)
      rw [List.getElem?_append_left (by rwa [List.length_replicate]), List.getElem?_replicate,
        if_pos hfill, List.getElem?_append_right (by simp),
        List.length_replicate, Nat.sub_self] at hbit
      simp at hbit
  have hdrop : ∀ n, (List.replicate n false ++ true :: bits.reverse).dropWhile (· = false) =
      true :: bits.reverse := by
    intro n
    induction n with
    | zero => rfl
    | succ n ih => rw [List.replicate_succ, List.cons_append, List.dropWhile_cons_of_pos rfl, ih]
  rw [unmark, if_neg hmark, hreverse, hdrop]
  rfl

/-- A last byte that is not zero has the end mark in it. -/
theorem exists_mark (before : List UInt8) {last : UInt8} (h : last ≠ 0) :
    Bits.ofBytes (before ++ [last]) =
      (Bits.ofBytes before ++ Bits.low last.toNat.log2 last.toNat) ++
        true :: List.replicate (7 - last.toNat.log2) false ∧ last.toNat.log2 < 8 := by
  have hnat : last.toNat ≠ 0 := fun hzero => h (UInt8.toNat.inj hzero)
  have hlog : last.toNat.log2 < 8 := (Nat.log2_lt hnat).mpr last.toNat_lt
  refine ⟨?_, hlog⟩
  rw [Bits.ofBytes_append, Bits.ofBytes_cons, Bits.ofBytes_nil, List.append_nil,
    Bits.low_eq_append_true hnat hlog, List.append_assoc]

/-- A stream is known by the bits below its end mark. -/
theorem eq_toBytes_of_unmark {stream : List UInt8} {bits : List Bool}
    (h : unmark stream = .ok bits) : stream = Bits.toBytes (bits.reverse ++ [true]) := by
  rcases List.eq_nil_or_concat stream with rfl | ⟨before, last, rfl⟩
  · cases h
  rw [List.concat_eq_append] at h ⊢
  by_cases hlast : last = 0
  · simp [unmark, hlast] at h
  obtain ⟨hspelled, hlog⟩ := exists_mark before hlast
  rw [unmark_of_ofBytes_eq (by omega) hspelled, Except.ok.injEq] at h
  rw [← h, List.reverse_reverse]
  rw [← List.nil_append (Bits.toBytes _)]
  refine Bits.eq_append_toBytes (show 7 - last.toNat.log2 < 8 by omega) ?_
  rw [hspelled, Bits.ofBytes_nil, List.nil_append, List.append_assoc _ [true]]
  rfl

/-- **Marking and cutting lose nothing.** -/
theorem unmark_toBytes (bits : List Bool) :
    unmark (Bits.toBytes (bits ++ [true])) = .ok bits.reverse := by
  obtain ⟨fill, hfill, hbits⟩ := Bits.ofBytes_toBytes (bits ++ [true])
  exact unmark_of_ofBytes_eq hfill (by rw [hbits, List.append_assoc]; rfl)

end Stream.Plain

namespace Reader

/-! ### Reading -/

/-- Loading ends with a window that has no room for a byte, or with all bytes loaded. -/
theorem load_full (unread : List UInt8) (window : UInt64) (live : ℕ)
    (live_le : live ≤ containerBits) :
    56 < (load unread window live live_le).live ∨
      (load unread window live live_le).unread = [] := by
  induction unread generalizing window live with
  | nil => exact .inr rfl
  | cons byte unread ih =>
    rw [load]
    split
    · exact ih _ _ _
    · rename_i room
      refine .inl ?_
      rw [containerBits] at room
      show 56 < live
      omega

theorem length_unreadBits (reader : Reader) :
    reader.unreadBits.length = reader.live + 8 * reader.unread.length := by
  have hunread : ∀ unread : List UInt8,
      (unread.flatMap fun byte => (Bits.low 8 byte.toNat).reverse).length = 8 * unread.length := by
    intro unread
    induction unread with
    | nil => rfl
    | cons byte unread ih =>
      rw [List.flatMap_cons, List.length_append, List.length_reverse, Bits.length_low, ih,
        List.length_cons]
      omega
  rw [unreadBits, List.length_append, List.length_reverse, Bits.length_low, hunread]

/-- A topped up window holds a field of up to 57 bits, if the stream does. -/
theorem le_live_reload {reader : Reader} {width : ℕ} (hwidth : width ≤ 57)
    (h : width ≤ reader.unreadBits.length) : width ≤ reader.reload.live := by
  rw [← unreadBits_reload, length_unreadBits] at h
  rcases load_full reader.unread reader.window reader.live reader.live_le with hlive | hunread
  · exact Nat.le_trans hwidth hlive
  · rw [reload, hunread] at h
    exact h

theorem live_le_length_unreadBits (reader : Reader) : reader.live ≤ reader.unreadBits.length := by
  rw [length_unreadBits]
  exact Nat.le_add_right _ _

/-- **Reading takes bits from the front.** -/
theorem read_of_le {reader : Reader} {width : ℕ} (hwidth : width ≤ 57)
    (h : width ≤ reader.unreadBits.length) :
    ∃ next, read width reader =
        .ok (Bits.value (reader.unreadBits.take width).reverse % 2 ^ 32) next ∧
      next.unreadBits = reader.unreadBits.drop width := by
  rw [read]
  split
  · rename_i hzero
    subst hzero
    exact ⟨reader, rfl, rfl⟩
  · rename_i hpos
    have hlive : width ≤ (if reader.live < width then reader.reload else reader).live := by
      split
      · exact le_live_reload hwidth h
      · rename_i hge
        exact Nat.le_of_not_lt hge
    have hbits : (if reader.live < width then reader.reload else reader).unreadBits =
        reader.unreadBits := by
      split
      · exact unreadBits_reload reader
      · rfl
    rw [if_neg (Nat.not_lt.mpr hlive), front_eq (Nat.pos_of_ne_zero hpos) hlive, hbits]
    exact ⟨_, rfl, by rw [unreadBits_advance hlive, hbits]⟩

/-- **Reading past the start** leaves all bits unread. -/
theorem read_of_lt {reader : Reader} {width : ℕ} (h : reader.unreadBits.length < width) :
    ∃ next, read width reader = .error (.corruptStream .readPastStart) next ∧
      next.unreadBits = reader.unreadBits := by
  have hlive := live_le_length_unreadBits reader
  have hreload := live_le_length_unreadBits reader.reload
  rw [unreadBits_reload] at hreload
  rw [read, if_neg (by omega)]
  simp only [if_pos (Nat.lt_of_le_of_lt hlive h), if_pos (Nat.lt_of_le_of_lt hreload h)]
  exact ⟨_, rfl, unreadBits_reload reader⟩

/-- A read that fails leaves all bits unread, however wide the field. -/
theorem unreadBits_of_read_error {reader next : Reader} {width : ℕ} {e : Error}
    (h : read width reader = .error e next) : next.unreadBits = reader.unreadBits := by
  rw [read] at h
  split at h
  · cases h
  · by_cases hlive : reader.live < width
    · simp only [if_pos hlive] at h
      split at h
      · cases h
        exact unreadBits_reload reader
      · cases h
    · simp only [if_neg hlive] at h
      cases h

/-! ### A new reader -/

/-- **A new reader stands below the end mark**, and there is none where no mark is. -/
theorem map_unreadBits_ofBytes (stream : List UInt8) :
    (ofBytes stream).map unreadBits = Stream.Plain.unmark stream := by
  rcases List.eq_nil_or_concat stream with rfl | ⟨before, last, rfl⟩
  · rfl
  rw [List.concat_eq_append]
  by_cases hlast : last = 0
  · simp [ofBytes, Stream.Plain.unmark, hlast, Except.map]
  obtain ⟨hspelled, hlog⟩ := Stream.Plain.exists_mark before hlast
  rw [Stream.Plain.unmark_of_ofBytes_eq (by omega) hspelled]
  -- the whole stream is unread before the mark is skipped
  have hunread : (⟨last :: before.reverse, 0, 0, Nat.zero_le _⟩ : Reader).unreadBits =
      (Bits.ofBytes (before ++ [last])).reverse := by
    rw [Bits.ofBytes, List.reverse_flatMap, List.reverse_append]
    rfl
  have hmark : 8 - last.toNat.log2 ≤
      (⟨last :: before.reverse, 0, 0, Nat.zero_le _⟩ : Reader).unreadBits.length := by
    rw [hunread, List.length_reverse, Bits.length_ofBytes, List.length_append,
      List.length_singleton]
    omega
  have hlive := le_live_reload (by omega) hmark
  have hreverse : (before ++ [last]).reverse = last :: before.reverse := by simp
  simp only [ofBytes, hreverse, if_neg hlast, Except.map, Except.ok.injEq]
  change (advance (reload ⟨last :: before.reverse, 0, 0, Nat.zero_le _⟩) _).unreadBits = _
  rw [unreadBits_advance hlive, unreadBits_reload, hunread, hspelled, List.reverse_append,
    List.drop_left' (by simp; omega)]

end Reader

end FiniteStateEntropy
