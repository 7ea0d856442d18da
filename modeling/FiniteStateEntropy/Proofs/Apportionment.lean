import FiniteStateEntropy.Apportionment
import Mathlib.Algebra.Ring.Nat

/-!
# Apportionment succeeds

The first division settles which symbols are absent, rare and common, and no correction changes
that: only common symbols gain or lose slots, and a common symbol keeps its last one. So an
apportionment can fail for one reason, that there are more symbols than slots, and that is checked
before anything is divided.

Two counts carry both arguments. If no common symbol has more than one slot, there are as many
slots given out as there are symbols, so there is no excess. If there is no common symbol at all,
the symbols together occur too seldom to leave a slot over.

## Main results

* `Apportionment.exists_enlarge`, `Apportionment.exists_repay`: the two corrections
* `Histogram.exists_apportion`: the distribution of a histogram
-/

namespace FiniteStateEntropy

/-- Whether a symbol is absent, rare or common. -/
inductive Share.Kind where
  /-- No slot. -/
  | absent
  /-- The one slot of a rare symbol. -/
  | rare
  /-- Slots by proportion. -/
  | common
  deriving DecidableEq, Repr

/-- The kind of a share. -/
def Share.kind : Share → Share.Kind
  | absent => .absent
  | rare => .rare
  | common _ _ => .common

namespace Share

theorem ofSlots_of_pos {n : ℕ} (h : 0 < n) : ofSlots n = common n h := dif_pos h

@[simp] theorem weight_common (n : ℕ) (pos : 0 < n) : (common n pos).weight = n := rfl

theorem weight_le_slots (share : Share) : share.weight ≤ share.slots := by
  cases share <;> simp [weight, slots]

theorem exists_eq_common {share : Share} (h : share.weight ≠ 0) :
    ∃ pos, share = common share.weight pos := by
  cases share with
  | absent => exact absurd rfl h
  | rare => exact absurd rfl h
  | common n pos => exact ⟨pos, rfl⟩

theorem weight_ne_zero_iff_kind (share : Share) : share.weight ≠ 0 ↔ share.kind = .common := by
  cases share with
  | absent => simp [weight, kind]
  | rare => simp [weight, kind]
  | common n pos => simp [weight, kind, Nat.ne_of_gt pos]

theorem slots_ne_zero_iff_kind (share : Share) : share.slots ≠ 0 ↔ share.kind ≠ .absent := by
  cases share with
  | absent => simp [slots, kind]
  | rare => simp [slots, kind]
  | common n pos => simp [slots, kind, Nat.ne_of_gt pos]

theorem eq_rare_iff_kind (share : Share) : share = .rare ↔ share.kind = .rare := by
  cases share <;> simp [kind]

end Share

namespace Apportionment

variable {shares : List Share}

/-! ### The greatest weight -/

@[simp] theorem greatestWeight_cons (share : Share) (shares : List Share) :
    greatestWeight (share :: shares) = max share.weight (greatestWeight shares) := by
  rw [greatestWeight, greatestWeight, List.map_cons, List.foldl_cons, Nat.max_comm 0,
    List.foldl_assoc]

theorem weight_le_greatestWeight {share : Share} (h : share ∈ shares) :
    share.weight ≤ greatestWeight shares := by
  induction shares with
  | nil => cases h
  | cons first rest ih =>
    rw [greatestWeight_cons]
    rcases List.mem_cons.mp h with rfl | h
    · exact Nat.le_max_left _ _
    · exact Nat.le_trans (ih h) (Nat.le_max_right _ _)

theorem exists_weight_eq (h : greatestWeight shares ≠ 0) :
    ∃ share ∈ shares, share.weight = greatestWeight shares := by
  induction shares with
  | nil => exact absurd rfl h
  | cons first rest ih =>
    rw [greatestWeight_cons] at h ⊢
    by_cases hle : greatestWeight rest ≤ first.weight
    · exact ⟨first, List.mem_cons_self, (Nat.max_eq_left hle).symm⟩
    · obtain ⟨share, hmem, hweight⟩ := ih (by omega)
      exact ⟨share, List.mem_cons_of_mem first hmem, by omega⟩

/-- **The favourite** stands behind symbols of smaller weight. -/
theorem exists_favourite (h : greatestWeight shares ≠ 0) :
    ∃ before pos after, shares = before ++ .common (greatestWeight shares) pos :: after ∧
      before.length = favourite shares ∧
      ∀ share ∈ before, share.weight < greatestWeight shares := by
  have hexists : ∃ share ∈ shares, (share.weight == greatestWeight shares) = true := by
    obtain ⟨share, hmem, hweight⟩ := exists_weight_eq h
    exact ⟨share, hmem, beq_iff_eq.mpr hweight⟩
  have hlt : favourite shares < shares.length := List.findIdx_lt_length_of_exists hexists
  have hweight : shares[favourite shares].weight = greatestWeight shares :=
    beq_iff_eq.mp (List.findIdx_getElem
      (p := fun share : Share => share.weight == greatestWeight shares))
  obtain ⟨pos, hcommon⟩ := Share.exists_eq_common (hweight ▸ h)
  refine ⟨shares.take (favourite shares), Nat.pos_of_ne_zero h,
    shares.drop (favourite shares + 1), ?_, List.length_take_of_le (Nat.le_of_lt hlt), ?_⟩
  · have hfavourite : Share.common (greatestWeight shares) (Nat.pos_of_ne_zero h) =
        shares[favourite shares] := by
      rw [hcommon]
      congr 1
      exact hweight.symm
    rw [hfavourite, ← List.drop_eq_getElem_cons hlt, List.take_append_drop]
  · intro share hmem
    obtain ⟨i, hi, rfl⟩ := List.mem_take_iff_getElem.mp hmem
    have hother := List.not_of_lt_findIdx
      (p := fun share : Share => share.weight == greatestWeight shares)
      (show i < favourite shares by omega)
    have hle := weight_le_greatestWeight (List.getElem_mem (show i < shares.length by omega))
    have hne := beq_eq_false_iff_ne.mp hother
    omega

theorem getElem?_favourite (h : greatestWeight shares ≠ 0) :
    ∃ pos, shares[favourite shares]? = some (.common (greatestWeight shares) pos) := by
  obtain ⟨before, pos, after, hshares, hlength, -⟩ := exists_favourite h
  refine ⟨pos, ?_⟩
  rw [← hlength]
  exact (congrArg (·[before.length]?) hshares).trans (by simp)

/-! ### What a correction changes -/

/-- The number of symbols with a slot. -/
def presence (shares : List Share) : ℕ := (shares.map Share.kind).countP (· ≠ .absent)

theorem presence_cons (share : Share) (shares : List Share) :
    presence (share :: shares) = presence shares + if share.kind = .absent then 0 else 1 := by
  rw [presence, presence, List.map_cons, List.countP_cons]
  cases share <;> rfl

theorem presence_le_sum_slots (shares : List Share) :
    presence shares ≤ (shares.map Share.slots).sum := by
  induction shares with
  | nil => exact Nat.le_refl 0
  | cons share rest ih =>
    have hone : (if share.kind = .absent then 0 else 1) ≤ share.slots := by
      split
      · exact Nat.zero_le _
      · rename_i hkind
        exact Nat.pos_of_ne_zero (share.slots_ne_zero_iff_kind.mpr hkind)
    rw [presence_cons, List.map_cons, List.sum_cons]
    omega

/-- With single slots only, there are no more slots than symbols. -/
theorem sum_slots_le_presence (h : greatestWeight shares ≤ 1) :
    (shares.map Share.slots).sum ≤ presence shares := by
  induction shares with
  | nil => exact Nat.le_refl 0
  | cons share rest ih =>
    rw [greatestWeight_cons] at h
    have hrest := ih (by omega)
    have hone : share.slots ≤ if share.kind = .absent then 0 else 1 := by
      cases share with
      | absent => exact Nat.le_refl 0
      | rare => exact Nat.le_refl 1
      | common n pos =>
        rw [Share.weight_common] at h
        exact Nat.le_trans (Nat.le_max_left _ _) h
    rw [presence_cons, List.map_cons, List.sum_cons]
    omega

/-- **A correction at the favourite.** It stays common, and only its slots change. -/
theorem modify_favourite (change : ℕ → ℕ) (h : greatestWeight shares ≠ 0)
    (hchange : 0 < change (greatestWeight shares)) {settled : List Share}
    (hsettled : settled =
      shares.modify (favourite shares) fun share => .ofSlots (change share.weight)) :
    settled.map Share.kind = shares.map Share.kind ∧
      (settled.map Share.slots).sum + greatestWeight shares =
        (shares.map Share.slots).sum + change (greatestWeight shares) := by
  obtain ⟨before, pos, after, hshares, hlength, -⟩ := exists_favourite h
  generalize greatestWeight shares = greatest at *
  have hmodified : settled = before ++ .common (change greatest) hchange :: after := by
    rw [hsettled, ← hlength, hshares, List.modify_eq_take_cons_drop (by simp)]
    simp [Share.ofSlots_of_pos hchange]
  constructor
  · rw [hmodified, hshares]
    simp [Share.kind]
  · rw [hmodified, hshares]
    simp only [List.map_append, List.map_cons, List.sum_append, List.sum_cons, Share.slots]
    omega

/-- **Slots left over** go to the favourite, if some symbol is common. -/
theorem exists_enlarge (h : greatestWeight shares ≠ 0) (extra : ℕ) :
    ∃ settled, enlarge extra shares = some settled ∧
      settled.map Share.kind = shares.map Share.kind ∧
      (settled.map Share.slots).sum = (shares.map Share.slots).sum + extra := by
  obtain ⟨hkind, hsum⟩ := modify_favourite (· + extra) h (by omega) rfl
  exact ⟨_, if_neg h, hkind, by omega⟩

/-- **Slots given out in excess** are taken back as long as there are more slots than symbols. -/
theorem exists_repay {excess : ℕ}
    (h : presence shares + excess ≤ (shares.map Share.slots).sum) :
    ∃ settled, repay excess shares = some settled ∧
      settled.map Share.kind = shares.map Share.kind ∧
      (settled.map Share.slots).sum + excess = (shares.map Share.slots).sum := by
  induction excess generalizing shares with
  | zero => exact ⟨shares, rfl, rfl, rfl⟩
  | succ excess ih =>
    have hgreatest : ¬greatestWeight shares ≤ 1 := by
      intro hle
      have := sum_slots_le_presence hle
      omega
    obtain ⟨hkind, hsum⟩ := modify_favourite (· - 1)
      (show greatestWeight shares ≠ 0 by omega) (by omega) rfl
    rw [repay, if_neg hgreatest]
    generalize (shares.modify (favourite shares) fun share => .ofSlots (share.weight - 1)) = next
      at hkind hsum ⊢
    have hpresence : presence next = presence shares := by
      rw [presence, presence, hkind]
    obtain ⟨settled, hrepay, hkind', hsum'⟩ :=
      ih (show presence next + excess ≤ (next.map Share.slots).sum by omega)
    exact ⟨settled, hrepay, hkind'.trans hkind, by omega⟩

/-! ### The first division -/

/-- The kind of a symbol with `count` occurrences among `total`. -/
def expectedKind (tableLog total count : ℕ) : Share.Kind :=
  if count = 0 then .absent else if count ≤ total >>> tableLog then .rare else .common

theorem kind_initialShare (tableLog total count : ℕ) :
    (initialShare tableLog total count).kind = expectedKind tableLog total count := by
  rw [initialShare, expectedKind]
  split
  · rfl
  · split
    · rfl
    · rw [Share.ofSlots_of_pos (Nat.lt_of_lt_of_le Nat.zero_lt_one (Nat.le_max_left 1 _))]
      rfl

theorem expectedKind_eq_absent_iff (tableLog total count : ℕ) :
    expectedKind tableLog total count = .absent ↔ count = 0 := by
  rw [expectedKind]
  split
  · simp [*]
  · split <;> simp [*]

theorem expectedKind_eq_rare_iff (tableLog total count : ℕ) :
    expectedKind tableLog total count = .rare ↔ 0 < count ∧ count ≤ total >>> tableLog := by
  rw [expectedKind]
  split
  · rename_i hzero
    simp [hzero]
  · rename_i hpos
    split <;> simp [*, Nat.pos_of_ne_zero hpos]

theorem map_kind_initial (tableLog : ℕ) (histogram : Histogram) :
    (initial tableLog histogram).map Share.kind =
      histogram.counts.map (expectedKind tableLog histogram.total) := by
  rw [initial, List.map_map]
  refine List.map_congr_left ?_
  intro count _
  exact kind_initialShare tableLog histogram.total count

theorem presence_initial (tableLog : ℕ) (histogram : Histogram) :
    presence (initial tableLog histogram) = histogram.distinct := by
  rw [presence, map_kind_initial, List.countP_map, Histogram.distinct]
  refine List.countP_congr ?_
  intro count _
  rw [Function.comp_apply, decide_eq_true_iff, decide_eq_true_iff, ne_eq,
    expectedKind_eq_absent_iff]
  exact Nat.pos_iff_ne_zero.symm

/-- A bound for every count, with an allowance for some of them, bounds the sums. -/
theorem sum_map_le_add_countP_mul {counts : List ℕ} {f g : ℕ → ℕ} {p : ℕ → Bool} {allowance : ℕ}
    (h : ∀ count ∈ counts, f count ≤ g count + if p count then allowance else 0) :
    (counts.map f).sum ≤ (counts.map g).sum + counts.countP p * allowance := by
  induction counts with
  | nil => exact Nat.zero_le _
  | cons count rest ih =>
    simp only [List.mem_cons, forall_eq_or_imp] at h
    obtain ⟨hcount, hrest⟩ := h
    have hsum := ih hrest
    rw [List.map_cons, List.map_cons, List.sum_cons, List.sum_cons, List.countP_cons, Nat.add_mul]
    split at hcount
    · rw [if_pos ‹_›]
      omega
    · rw [if_neg ‹_›]
      omega

/-- Bounded counts have a bounded sum. -/
theorem sum_le_countP_mul {counts : List ℕ} {bound : ℕ} (h : ∀ count ∈ counts, count ≤ bound) :
    counts.sum ≤ counts.countP (0 < ·) * bound := by
  have hsum : (counts.map id).sum ≤
      (counts.map fun _ => 0).sum + counts.countP (0 < ·) * bound := by
    refine sum_map_le_add_countP_mul ?_
    intro count hmem
    have := h count hmem
    simp only [id_eq, decide_eq_true_eq]
    split <;> omega
  simpa [List.map_const'] using hsum

/-- **A slot left over** means that some symbol is common. -/
theorem greatestWeight_initial_ne_zero {tableLog : ℕ} {histogram : Histogram}
    (htotal : histogram.total ≠ 0)
    (h : ((initial tableLog histogram).map Share.slots).sum < 2 ^ tableLog) :
    greatestWeight (initial tableLog histogram) ≠ 0 := by
  intro hgreatest
  have hrare : ∀ count ∈ histogram.counts, count ≤ histogram.total >>> tableLog := by
    intro count hmem
    refine Nat.le_of_not_lt ?_
    intro hlt
    have hweight := weight_le_greatestWeight
      (List.mem_map_of_mem (f := initialShare tableLog histogram.total) hmem)
    have hkind : (initialShare tableLog histogram.total count).kind = .common := by
      rw [kind_initialShare, expectedKind, if_neg (Nat.ne_zero_of_lt hlt),
        if_neg (Nat.not_le_of_lt hlt)]
    have hpos := (Share.weight_ne_zero_iff_kind _).mpr hkind
    rw [initial] at hgreatest
    omega
  have hslot : 2 ^ tableLog * (histogram.total >>> tableLog) ≤ histogram.total := by
    rw [Nat.shiftRight_eq_div_pow]
    exact Nat.mul_div_le _ _
  have htotalle : histogram.total ≤ histogram.distinct * (histogram.total >>> tableLog) :=
    sum_le_countP_mul hrare
  have hpresence := presence_le_sum_slots (initial tableLog histogram)
  rw [presence_initial] at hpresence
  have hfew : histogram.distinct + 1 ≤ 2 ^ tableLog := by omega
  generalize histogram.total >>> tableLog = threshold at hslot htotalle
  -- fewer symbols than slots, and each occurs no more often than a slot stands for
  have hmul := Nat.mul_le_mul_right threshold hfew
  rw [Nat.add_mul, Nat.one_mul] at hmul
  have hzero : threshold = 0 := by omega
  rw [hzero, Nat.mul_zero] at htotalle
  omega

/-- **The correction that a leftover calls for** fills the table. -/
theorem exists_settle {tableLog : ℕ} {histogram : Histogram} (htotal : histogram.total ≠ 0)
    (hdistinct : histogram.distinct ≤ 2 ^ tableLog) :
    ∃ settled, settle (leftover tableLog (initial tableLog histogram))
        (initial tableLog histogram) = some settled ∧
      settled.map Share.kind = histogram.counts.map (expectedKind tableLog histogram.total) ∧
      (settled.map Share.slots).sum = 2 ^ tableLog := by
  rw [← map_kind_initial]
  have hcommon := @greatestWeight_initial_ne_zero tableLog histogram htotal
  rw [← presence_initial tableLog histogram] at hdistinct
  generalize initial tableLog histogram = shares at *
  unfold settle
  split
  · rename_i hleftover
    rw [leftover, Int.ofNat_eq_natCast] at hleftover
    exact ⟨shares, rfl, rfl, by omega⟩
  · rename_i extra hleftover
    rw [leftover, Int.ofNat_eq_natCast] at hleftover
    obtain ⟨settled, henlarge, hkind, hsum⟩ := exists_enlarge (hcommon (by omega)) (extra + 1)
    exact ⟨settled, henlarge, hkind, by omega⟩
  · rename_i excess hleftover
    rw [leftover] at hleftover
    obtain ⟨settled, hrepay, hkind, hsum⟩ :=
      exists_repay (show presence shares + (excess + 1) ≤ (shares.map Share.slots).sum by omega)
    exact ⟨settled, hrepay, hkind, by omega⟩

end Apportionment

/-! ### The distribution of a histogram -/

namespace Histogram

open Apportionment (expectedKind)

/-- **Apportionment succeeds** wherever there are no more symbols than slots. A symbol is present
if it occurs, and rare if it occurs no more often than a slot stands for. -/
theorem exists_apportion {histogram : Histogram} {tableLog : ℕ}
    (hlog : minTableLog ≤ tableLog ∧ tableLog ≤ maxTableLog) (htotal : histogram.total ≠ 0)
    (hdistinct : histogram.distinct ≤ 2 ^ tableLog) :
    ∃ distribution, histogram.apportion tableLog = .ok distribution ∧
      distribution.tableLog = tableLog ∧
      distribution.shares.map Share.kind =
        histogram.counts.map (expectedKind tableLog histogram.total) := by
  obtain ⟨settled, hsettle, hkind, hsum⟩ := Apportionment.exists_settle htotal hdistinct
  have hlength : settled.length = histogram.counts.length := by
    have := congrArg List.length hkind
    rwa [List.length_map, List.length_map] at this
  have hne : settled ≠ [] := by
    rw [← List.length_pos_iff, hlength, List.length_pos_iff]
    exact histogram.counts_ne_nil
  have hlast : settled.getLast? ≠ some .absent := by
    intro habsent
    have hkindlast := congrArg List.getLast? hkind
    rw [List.getLast?_map, List.getLast?_map, habsent] at hkindlast
    cases hcounts : histogram.counts.getLast? with
    | none => simp [hcounts] at hkindlast
    | some count =>
      simp only [hcounts, Option.map_some, Option.some.injEq, Share.kind] at hkindlast
      have hzero := (Apportionment.expectedKind_eq_absent_iff _ _ _).mp hkindlast.symm
      subst hzero
      rcases histogram.trimmed with hnothing | hnonzero
      · exact htotal (by rw [total, hnothing]; rfl)
      · exact hnonzero hcounts
  have hlengthle : settled.length ≤ 256 := hlength ▸ histogram.length_counts_le
  refine ⟨⟨tableLog, settled, hlog, hne, hlengthle, hlast, hsum⟩, ?_, rfl, hkind⟩
  have hsmall : ¬(tableLog < minTableLog ∨ maxTableLog < tableLog) := by omega
  rw [apportion, if_neg hsmall, if_neg htotal, if_neg (Nat.not_lt_of_le hdistinct)]
  simp only [hsettle]
  exact Distribution.ofShares_shares ⟨tableLog, settled, hlog, hne, hlengthle, hlast, hsum⟩

section

variable {histogram : Histogram} {distribution : Distribution} {tableLog : ℕ}
  (hkind : distribution.shares.map Share.kind =
    histogram.counts.map (expectedKind tableLog histogram.total))

include hkind

/-- Every symbol is of the kind that its count calls for, also outside the alphabet. -/
theorem kind_share? (symbol : ℕ) :
    ((distribution.share? symbol).map Share.kind).getD .absent =
      expectedKind tableLog histogram.total (histogram.counts.getD symbol 0) := by
  have hsymbol := congrArg (fun kinds : List Share.Kind => kinds[symbol]?) hkind
  simp only [List.getElem?_map] at hsymbol
  rw [Distribution.share?, hsymbol, List.getD_eq_getElem?_getD]
  cases histogram.counts[symbol]? with
  | none => exact ((Apportionment.expectedKind_eq_absent_iff _ _ _).mpr rfl).symm
  | some count => rfl

/-- The present symbols of a distribution are those that occur. -/
theorem slots_ne_zero_iff (symbol : ℕ) :
    distribution.slots symbol ≠ 0 ↔ histogram.counts.getD symbol 0 ≠ 0 := by
  rw [ne_eq (histogram.counts.getD symbol 0),
    ← Apportionment.expectedKind_eq_absent_iff tableLog histogram.total, ← kind_share? hkind,
    Distribution.slots]
  cases distribution.share? symbol with
  | none => simp
  | some share => exact share.slots_ne_zero_iff_kind

/-- The rare symbols are those that occur, and no more often than a slot stands for. -/
theorem share?_eq_rare_iff (symbol : ℕ) :
    distribution.share? symbol = some .rare ↔ 0 < histogram.counts.getD symbol 0 ∧
      histogram.counts.getD symbol 0 ≤ histogram.total >>> tableLog := by
  rw [← Apportionment.expectedKind_eq_rare_iff, ← kind_share? hkind]
  cases distribution.share? symbol with
  | none => simp
  | some share => simpa using share.eq_rare_iff_kind

end

end Histogram

end FiniteStateEntropy
