import FiniteStateEntropy.Proofs.Apportionment
import Mathlib.Data.Int.Notation
import Mathlib.Data.List.GetD

/-!
# What a correction changes

A correction is made at one symbol at a time, the first one of greatest weight, and leaves all
others alone. So what becomes of a share is known symbol by symbol: slots left over reach a single
symbol, and whatever holds of the shares through every slot taken back holds when enough of them
are. Nothing here depends on how the first division rounds.

A symbol outside an alphabet is taken to have the share `Share.absent`.

## Main definitions

* `Apportionment.shareAt`: the share of a symbol
* `Apportionment.takeBack`: one slot taken back
* `Histogram.assigned`, `Histogram.remainder`: the first division, and the slots it leaves over
* `Histogram.Receives`: a symbol gets all slots that are left over

## Main results

* `Apportionment.shareAt_modify`: a correction changes the share of one symbol
* `Apportionment.repay_induction`: what holds through all slots taken back
* `Histogram.correction`: what becomes of the first division
-/

namespace FiniteStateEntropy

theorem Share.toInt_le_weight (share : Share) : share.toInt ≤ share.weight := by
  cases share <;> simp [toInt, weight]

theorem Share.slots_le_max_weight (share : Share) : share.slots ≤ max 1 share.weight := by
  cases share with
  | absent => exact Nat.zero_le _
  | rare => exact Nat.le_refl 1
  | common n pos => exact Nat.le_max_right 1 n

namespace Apportionment

variable {shares settled : List Share}

/-! ### One symbol -/

/-- The share of a symbol. -/
def shareAt (shares : List Share) (symbol : ℕ) : Share := shares.getD symbol .absent

theorem slots_eq_slots_shareAt (distribution : Distribution) (symbol : ℕ) :
    distribution.slots symbol = (shareAt distribution.shares symbol).slots := by
  rw [Distribution.slots, Distribution.share?, shareAt, List.getD_eq_getElem?_getD]
  cases distribution.shares[symbol]? <;> rfl

theorem weight_shareAt_le (shares : List Share) (symbol : ℕ) :
    (shareAt shares symbol).weight ≤ greatestWeight shares := by
  rw [shareAt, List.getD_eq_getElem?_getD]
  cases hshare : shares[symbol]? with
  | none => exact Nat.zero_le _
  | some share => exact weight_le_greatestWeight (List.mem_of_getElem? hshare)

/-- **The first symbol of greatest weight** is common. -/
theorem shareAt_favourite (h : greatestWeight shares ≠ 0) :
    ∃ pos, shareAt shares (favourite shares) = .common (greatestWeight shares) pos := by
  obtain ⟨pos, hfavourite⟩ := getElem?_favourite h
  exact ⟨pos, by rw [shareAt, List.getD_eq_getElem?_getD, hfavourite]; rfl⟩

/-- The symbols before it weigh less. -/
theorem weight_shareAt_lt (h : greatestWeight shares ≠ 0) {symbol : ℕ}
    (hlt : symbol < favourite shares) : (shareAt shares symbol).weight < greatestWeight shares := by
  obtain ⟨before, pos, after, hshares, hlength, hbefore⟩ := exists_favourite h
  have hsymbol : symbol < before.length := hlength ▸ hlt
  have hget : shares[symbol]? = some before[symbol] := by
    refine (congrArg (·[symbol]?) hshares).trans ?_
    rw [List.getElem?_append_left hsymbol, List.getElem?_eq_getElem]
  rw [shareAt, List.getD_eq_getElem?_getD, hget]
  exact hbefore _ (List.getElem_mem _)

/-- **A correction changes the share of one symbol.** -/
theorem shareAt_modify (change : ℕ → ℕ) (h : greatestWeight shares ≠ 0) (symbol : ℕ) :
    shareAt (shares.modify (favourite shares) fun share => .ofSlots (change share.weight)) symbol =
      if symbol = favourite shares then .ofSlots (change (greatestWeight shares))
      else shareAt shares symbol := by
  obtain ⟨pos, hfavourite⟩ := getElem?_favourite h
  simp only [shareAt, List.getD_eq_getElem?_getD, List.getElem?_modify]
  split
  · rename_i heq
    subst heq
    rw [if_pos rfl, hfavourite]
    rfl
  · rename_i hne
    rw [if_neg (Ne.symm hne)]
    simp

/-! ### Slots taken back -/

/-- Takes one slot back. -/
def takeBack (shares : List Share) : List Share :=
  shares.modify (favourite shares) fun share => .ofSlots (share.weight - 1)

theorem slots_shareAt_takeBack (h : 1 < greatestWeight shares) (symbol : ℕ) :
    (shareAt (takeBack shares) symbol).slots =
      if symbol = favourite shares then greatestWeight shares - 1
      else (shareAt shares symbol).slots := by
  rw [takeBack, shareAt_modify (· - 1) (by omega)]
  split
  · exact Share.slots_ofSlots _
  · rfl

/-- **What holds through all slots taken back.** A slot is never the last one of a symbol. -/
theorem repay_induction {P : List Share → Prop} {excess : ℕ}
    (h : repay excess shares = some settled) (hstart : P shares)
    (hstep : ∀ shares, 1 < greatestWeight shares → P shares → P (takeBack shares)) :
    P settled := by
  induction excess generalizing shares with
  | zero =>
    cases h
    exact hstart
  | succ excess ih =>
    rw [repay] at h
    split at h
    · cases h
    · rename_i hmore
      exact ih h (hstep shares (by omega) hstart)

/-- Nobody gains by it. -/
theorem slots_shareAt_le_of_repay {excess : ℕ} (h : repay excess shares = some settled)
    (symbol : ℕ) : (shareAt settled symbol).slots ≤ (shareAt shares symbol).slots := by
  refine repay_induction (P := fun later =>
    (shareAt later symbol).slots ≤ (shareAt shares symbol).slots) h (Nat.le_refl _) ?_
  intro later hmore hle
  rw [slots_shareAt_takeBack hmore]
  split
  · rename_i hsymbol
    obtain ⟨pos, hfavourite⟩ := shareAt_favourite (show greatestWeight later ≠ 0 by omega)
    rw [hsymbol, hfavourite] at hle
    exact Nat.le_trans (Nat.sub_le _ _) (hsymbol ▸ hle)
  · exact hle

end Apportionment

namespace Histogram

open Apportionment (initial initialShare shareAt repay)

/-! ### The first division and what becomes of it -/

/-- The share that a symbol gets in the first division. -/
def assigned (histogram : Histogram) (tableLog symbol : ℕ) : Share :=
  initialShare tableLog histogram.total (histogram.counts.getD symbol 0)

/-- The slots that the first division leaves over, negative if it gives out too many. -/
def remainder (histogram : Histogram) (tableLog : ℕ) : ℤ :=
  Apportionment.leftover tableLog (initial tableLog histogram)

/-- A symbol gets all slots that are left over, because it is the first one of greatest share. -/
structure Receives (histogram : Histogram) (tableLog : ℕ) (distribution : Distribution)
    (recipient : ℕ) : Prop where
  /-- There are such slots. -/
  pos : 0 < histogram.remainder tableLog
  /-- The symbol is common. -/
  common : (histogram.assigned tableLog recipient).kind = .common
  /-- No symbol has a greater share. -/
  greatest : ∀ symbol, (histogram.assigned tableLog symbol).toInt ≤
    (histogram.assigned tableLog recipient).toInt
  /-- No symbol before it has as great a one. -/
  first : ∀ symbol < recipient, (histogram.assigned tableLog symbol).toInt <
    (histogram.assigned tableLog recipient).toInt
  /-- It gets what is left over. -/
  slots_eq : (distribution.slots recipient : ℤ) =
    (histogram.assigned tableLog recipient).slots + histogram.remainder tableLog
  /-- The others keep what they have. -/
  slots_of_ne : ∀ symbol, symbol ≠ recipient →
    distribution.slots symbol = (histogram.assigned tableLog symbol).slots

variable {histogram : Histogram} {distribution : Distribution} {tableLog : ℕ}

/-- Nobody loses a slot when one symbol receives what is left over. -/
theorem Receives.assigned_le_slots {recipient : ℕ}
    (h : histogram.Receives tableLog distribution recipient) (symbol : ℕ) :
    (histogram.assigned tableLog symbol).slots ≤ distribution.slots symbol := by
  by_cases heq : symbol = recipient
  · have hpos := h.pos
    have hslots := h.slots_eq
    rw [heq]
    omega
  · exact Nat.le_of_eq (h.slots_of_ne symbol heq).symm

theorem shareAt_initial (symbol : ℕ) :
    shareAt (initial tableLog histogram) symbol = histogram.assigned tableLog symbol := by
  have habsent : initialShare tableLog histogram.total 0 = .absent := if_pos rfl
  rw [shareAt, assigned, initial, ← habsent, List.getD_map]

/-- The shares of a distribution are those that its correction leaves. -/
theorem settle_of_apportion (h : histogram.apportion tableLog = .ok distribution) :
    Apportionment.settle (histogram.remainder tableLog) (initial tableLog histogram) =
      some distribution.shares := by
  rw [apportion] at h
  split at h
  · cases h
  split at h
  · cases h
  split at h
  · cases h
  rw [remainder]
  dsimp only at h
  split at h
  · rename_i settled hsettled
    rw [hsettled, (Distribution.eq_of_ofShares h).2]
  · cases h

/-- Slots left over go to the first symbol of greatest weight. -/
theorem receives_favourite {extra : ℕ} (hpos : 0 < extra)
    (hremainder : histogram.remainder tableLog = extra)
    (h : Apportionment.enlarge extra (initial tableLog histogram) = some distribution.shares) :
    histogram.Receives tableLog distribution
      (Apportionment.favourite (initial tableLog histogram)) := by
  rw [Apportionment.enlarge] at h
  split at h
  · cases h
  rename_i hcommon
  obtain ⟨pos, hfavourite⟩ := Apportionment.shareAt_favourite hcommon
  have hslots : ∀ symbol, distribution.slots symbol =
      (if symbol = Apportionment.favourite (initial tableLog histogram) then
        .ofSlots (Apportionment.greatestWeight (initial tableLog histogram) + extra)
      else histogram.assigned tableLog symbol).slots := by
    intro symbol
    rw [Apportionment.slots_eq_slots_shareAt, ← Option.some.inj h,
      Apportionment.shareAt_modify (· + extra) hcommon, shareAt_initial]
  have hweight := Apportionment.weight_shareAt_le (initial tableLog histogram)
  have hbefore := @Apportionment.weight_shareAt_lt _ hcommon
  simp only [shareAt_initial] at hfavourite hweight hbefore
  refine ⟨hremainder ▸ Int.natCast_pos.mpr hpos, by rw [hfavourite]; rfl, ?_, ?_, ?_, ?_⟩
  · intro symbol
    rw [hfavourite]
    exact Int.le_trans (Share.toInt_le_weight _) (Int.ofNat_le.mpr (hweight symbol))
  · intro symbol hlt
    rw [hfavourite]
    exact Int.lt_of_le_of_lt (Share.toInt_le_weight _) (Int.ofNat_lt.mpr (hbefore hlt))
  · rw [hslots, if_pos rfl, Share.slots_ofSlots, hfavourite, hremainder]
    rfl
  · intro symbol hne
    rw [hslots, if_neg hne]

/-- **What becomes of the first division.** It stands if no slot is left over and none is missing;
slots left over go to one symbol; slots that are missing are taken back. -/
theorem correction (h : histogram.apportion tableLog = .ok distribution) :
    (histogram.remainder tableLog = 0 ∧
      ∀ symbol, distribution.slots symbol = (histogram.assigned tableLog symbol).slots) ∨
    (∃ recipient, histogram.Receives tableLog distribution recipient) ∨
    (histogram.remainder tableLog < 0 ∧
      ∃ excess, repay excess (initial tableLog histogram) = some distribution.shares) := by
  have hsettle := settle_of_apportion h
  cases hremainder : histogram.remainder tableLog with
  | ofNat extra =>
    rw [hremainder] at hsettle
    cases extra with
    | zero =>
      refine .inl ⟨rfl, ?_⟩
      intro symbol
      rw [Apportionment.slots_eq_slots_shareAt, ← Option.some.inj hsettle, shareAt_initial]
    | succ extra =>
      exact .inr (.inl ⟨_, receives_favourite extra.succ_pos hremainder hsettle⟩)
  | negSucc excess =>
    rw [hremainder] at hsettle
    exact .inr (.inr ⟨Int.negSucc_lt_zero excess, excess + 1, hsettle⟩)

end Histogram

end FiniteStateEntropy
