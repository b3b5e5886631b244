import Mathlib.Data.List.Basic
import Mathlib.Order.Bounds.Defs
import OracleMarkets.Proofs.Least
import OracleMarkets.Proofs.SortedMap
import OracleMarkets.Proofs.Stage.Identity

/-!
# The pair of assets that a ticker is about

`resolveAliases` tells pairs of assets apart by a text, which determines both ids
(`assetsText_injective`).  Of the pairs of assets that a ticker's feeds are about it takes the least
by three keys: the best rank of a base, the best rank of a quote, and the text.  Pairs without a
ranked base do not count.  Which pair wins depends on what the feeds say and not on their order.
-/

namespace OracleMarkets

variable {c : Config} {feeds : List Feed} {ticker key : String} {a b : UInt64 × UInt64}

/-! ## Pairs of assets -/

/-- The ids of base and quote, those of wrapped assets replaced by what they stand for. -/
def Feed.assets (c : Config) (f : Feed) : UInt64 × UInt64 :=
  (c.resolveId f.cmc.baseId, c.resolveId f.cmc.quoteId)

def assetsText (a : UInt64 × UInt64) : String := s!"{a.1}-{a.2}"

theorem identityKey_eq (c : Config) (f : Feed) : identityKey c f = assetsText (f.assets c) := rfl

theorem toList_assetsText (a : UInt64 × UInt64) :
    (assetsText a).toList = Nat.toDigits 10 a.1.toNat ++ '-' :: Nat.toDigits 10 a.2.toNat := by
  have htext : assetsText a = a.1.toNat.repr ++ "-" ++ a.2.toNat.repr := by
    simp only [assetsText]
    rfl
  rw [htext, String.toList_append, String.toList_append, Nat.toList_repr, Nat.toList_repr,
    List.append_assoc]
  rfl

/-- The text of two ids determines both, since no digit is a hyphen. -/
theorem assetsText_injective : Function.Injective assetsText := by
  have hdigits : ∀ n, '-' ∉ Nat.toDigits 10 n := fun n h ↦
    absurd (Nat.isDigit_of_mem_toDigits (by decide) (by decide) h) (by decide)
  have hid : ∀ {i j : UInt64}, Nat.toDigits 10 i.toNat = Nat.toDigits 10 j.toNat → i = j := by
    intro i j h
    apply UInt64.toNat_inj.1
    rw [← Nat.ofDigitChars_ten_toDigits (n := i.toNat), h, Nat.ofDigitChars_ten_toDigits]
  rintro ⟨i, j⟩ ⟨k, l⟩ h
  have hlists := congrArg String.toList h
  rw [toList_assetsText, toList_assetsText,
    List.append_cons_inj_of_notMem (hdigits _) (hdigits _)] at hlists
  exact Prod.ext (hid hlists.1) (hid hlists.2.2)

/-- The feeds of a ticker about a pair of assets. -/
def feedsAbout (c : Config) (feeds : List Feed) (ticker : String) (a : UInt64 × UInt64) :
    List Feed :=
  feeds.filter fun f ↦ f.tickerText = ticker ∧ f.assets c = a

theorem mem_feedsAbout {f : Feed} :
    f ∈ feedsAbout c feeds ticker a ↔ f ∈ feeds ∧ f.tickerText = ticker ∧ f.assets c = a := by
  simp [feedsAbout]

/-! ## Best ranks -/

theorem le_unranked (n : UInt64) : n ≤ unranked :=
  UInt64.le_iff_toNat_le.2 (Nat.le_of_lt_succ n.toNat_lt)

theorem lt_unranked_iff {n : UInt64} : n < unranked ↔ n ≠ unranked :=
  ⟨fun h heq ↦ UInt64.lt_irrefl _ (heq ▸ h), UInt64.lt_of_le_of_ne (le_unranked n)⟩

/-- `r` are the best rank of a base and the best rank of a quote among the feeds. -/
structure IdentityRank.IsBest (r : IdentityRank) (feeds : List Feed) : Prop where
  /-- No feed has a better rank of its base, and some feed has this one. -/
  base : IsLeast {n | ∃ f ∈ feeds, effectiveRank f.cmc.baseRank = n} r.base
  quote : IsLeast {n | ∃ f ∈ feeds, effectiveRank f.cmc.quoteRank = n} r.quote

/-- A running minimum is the least of the ranks of the feeds and of the one that it starts from. -/
theorem isLeast_foldl_min_from (rank : Feed → UInt64) (feeds : List Feed) (start : UInt64) :
    IsLeast {n | n = start ∨ ∃ f ∈ feeds, rank f = n}
      (feeds.foldl (fun r f ↦ min r (rank f)) start) := by
  induction feeds generalizing start with
  | nil =>
    refine ⟨.inl rfl, ?_⟩
    rintro n (rfl | ⟨f, hf, -⟩)
    · exact UInt64.le_refl _
    · cases hf
  | cons f feeds ih =>
    obtain ⟨hmem, hle⟩ := ih (min start (rank f))
    constructor
    · rcases hmem with heq | ⟨g, hg, hgr⟩
      · rcases Std.min_eq_or (a := start) (b := rank f) with hstart | hf
        · exact .inl (heq.trans hstart)
        · exact .inr ⟨f, List.mem_cons_self, (heq.trans hf).symm⟩
      · exact .inr ⟨g, List.mem_cons_of_mem f hg, hgr⟩
    · rintro n (rfl | ⟨g, hg, rfl⟩)
      · exact UInt64.le_trans (hle (.inl rfl)) Std.min_le_left
      · rcases List.mem_cons.1 hg with rfl | hg
        · exact UInt64.le_trans (hle (.inl rfl)) Std.min_le_right
        · exact hle (.inr ⟨g, hg, rfl⟩)

/-- The running minimum of the ranks of some feeds is their least rank. -/
theorem isLeast_foldl_min (rank : Feed → UInt64) (hne : feeds ≠ []) :
    IsLeast {n | ∃ f ∈ feeds, rank f = n}
      (feeds.foldl (fun r f ↦ min r (rank f)) unranked) := by
  obtain ⟨hmem, hle⟩ := isLeast_foldl_min_from rank feeds unranked
  refine ⟨?_, fun n hn ↦ hle (.inr hn)⟩
  rcases hmem with heq | hmem
  · -- Every rank is the worst one then, so any feed will do.
    obtain ⟨f, hf⟩ := List.exists_mem_of_ne_nil feeds hne
    refine ⟨f, hf, UInt64.le_antisymm ?_ (hle (.inr ⟨f, hf, rfl⟩))⟩
    rw [heq]
    exact le_unranked _
  · exact hmem

theorem IdentityRank.isBest_ofFeeds (hne : feeds ≠ []) : (ofFeeds feeds).IsBest feeds :=
  ⟨isLeast_foldl_min (fun f ↦ effectiveRank f.cmc.baseRank) hne,
    isLeast_foldl_min (fun f ↦ effectiveRank f.cmc.quoteRank) hne⟩

/-- Feeds have but one pair of best ranks. -/
theorem IdentityRank.IsBest.unique {r s : IdentityRank} (hr : r.IsBest feeds)
    (hs : s.IsBest feeds) : r = s := by
  have hbase := UInt64.le_antisymm (hr.base.2 hs.base.1) (hs.base.2 hr.base.1)
  have hquote := UInt64.le_antisymm (hr.quote.2 hs.quote.1) (hs.quote.2 hr.quote.1)
  cases r
  cases s
  exact congr (congrArg IdentityRank.mk hbase) hquote

/-! ## The winner of a ticker -/

/-- Some feed of the ticker is about the pair of assets, and its base has a rank. -/
def IsCandidate (c : Config) (feeds : List Feed) (ticker : String) (a : UInt64 × UInt64) : Prop :=
  ∃ f ∈ feedsAbout c feeds ticker a, effectiveRank f.cmc.baseRank < unranked

/-- The pair `a` with the best ranks `r` comes before the pair `b` with the best ranks `s`: by the
rank of the base, then by that of the quote, then by the text. -/
def Precedes (a : UInt64 × UInt64) (r : IdentityRank) (b : UInt64 × UInt64) (s : IdentityRank) :
    Prop :=
  r.base < s.base ∨ r.base = s.base ∧
    (r.quote < s.quote ∨ r.quote = s.quote ∧ assetsText a < assetsText b)

/-- The pair of assets that the feeds of a ticker are taken to be about. -/
structure Wins (c : Config) (feeds : List Feed) (ticker : String) (a : UInt64 × UInt64) : Prop where
  candidate : IsCandidate c feeds ticker a
  /-- The pair comes before every other pair about which some feed has a ranked base. -/
  first : ∀ b, IsCandidate c feeds ticker b → b ≠ a → ∀ r s : IdentityRank,
    r.IsBest (feedsAbout c feeds ticker a) → s.IsBest (feedsAbout c feeds ticker b) →
      Precedes a r b s

/-- Pairs of assets compare by their ranks, and by their texts if the ranks are equal. -/
theorem compareIdentity_eq_lt_iff {r s : IdentityRank} :
    compareIdentity (assetsText a, r) (assetsText b, s) = .lt ↔ Precedes a r b s := by
  have hnum : ∀ m n : UInt64, compare m n = .lt ↔ m < n := fun m n ↦ Std.compare_eq_lt
  have htext : ∀ x y : String, compare x y = .lt ↔ x < y := fun x y ↦ compareOfLessAndEq_eq_lt
  simp only [compareIdentity, Ordering.then_eq_lt, Precedes, hnum, htext, Std.compare_eq_iff_eq]

instance : Std.TransCmp compareIdentity :=
  inferInstanceAs (Std.TransCmp (compareLex (compareOn fun e : String × IdentityRank ↦ e.2.base)
    (compareLex (compareOn fun e ↦ e.2.quote) (compareOn fun e ↦ e.1))))

/-- A pair is a candidate exactly if it has feeds and the best rank of their bases is one. -/
theorem isCandidate_iff :
    IsCandidate c feeds ticker a ↔ feedsAbout c feeds ticker a ≠ [] ∧
      (IdentityRank.ofFeeds (feedsAbout c feeds ticker a)).base ≠ unranked := by
  constructor
  · rintro ⟨f, hf, hrank⟩
    have hne := List.ne_nil_of_mem hf
    refine ⟨hne, fun heq ↦ ?_⟩
    have hle := (IdentityRank.isBest_ofFeeds hne).base.2 ⟨f, hf, rfl⟩
    rw [heq] at hle
    exact UInt64.not_lt.2 hle hrank
  · rintro ⟨hne, hrank⟩
    obtain ⟨f, hf, heq⟩ := (IdentityRank.isBest_ofFeeds hne).base.1
    refine ⟨f, hf, ?_⟩
    rw [heq]
    exact lt_unranked_iff.2 hrank

/-- At most one pair of assets wins a ticker. -/
theorem Wins.unique (ha : Wins c feeds ticker a) (hb : Wins c feeds ticker b) : a = b := by
  by_contra hne
  have hab := compareIdentity_eq_lt_iff.2 (ha.first b hb.candidate (Ne.symm hne) _ _
    (IdentityRank.isBest_ofFeeds (isCandidate_iff.1 ha.candidate).1)
    (IdentityRank.isBest_ofFeeds (isCandidate_iff.1 hb.candidate).1))
  have hba := compareIdentity_eq_lt_iff.2 (hb.first a ha.candidate hne _ _
    (IdentityRank.isBest_ofFeeds (isCandidate_iff.1 hb.candidate).1)
    (IdentityRank.isBest_ofFeeds (isCandidate_iff.1 ha.candidate).1))
  have hgt := Std.OrientedCmp.gt_of_lt hab
  rw [hba] at hgt
  cases hgt

/-- The pairs of assets of a ticker with their best ranks, those without a ranked base left out. -/
theorem mem_ranks_iff {e : String × IdentityRank} :
    e ∈ (((SortedMap.groupBy (identityKey c) (feeds.filter fun f ↦ f.tickerText = ticker)).mapValues
        fun _ fs ↦ IdentityRank.ofFeeds fs).toList.filter fun e ↦ e.2.base ≠ unranked) ↔
      ∃ a, IsCandidate c feeds ticker a ∧
        e = (assetsText a, IdentityRank.ofFeeds (feedsAbout c feeds ticker a)) := by
  have hgroup : ∀ a, ((feeds.filter fun f ↦ f.tickerText = ticker).filter
      fun f ↦ identityKey c f = assetsText a) = feedsAbout c feeds ticker a := by
    intro a
    rw [feedsAbout, List.filter_filter]
    refine List.filter_congr fun f _ ↦ ?_
    simp [identityKey_eq, assetsText_injective.eq_iff, Bool.and_comm]
  rw [List.mem_filter, decide_eq_true_iff, SortedMap.mapValues, List.mem_map]
  constructor
  · rintro ⟨⟨⟨k, group⟩, hmem, rfl⟩, hrank⟩
    obtain ⟨rfl, hne⟩ := SortedMap.mem_toList_groupBy.1 hmem
    obtain ⟨f, hf⟩ := List.exists_mem_of_ne_nil _ hne
    obtain rfl : assetsText (f.assets c) = k := of_decide_eq_true (List.mem_filter.1 hf).2
    rw [hgroup] at hne hrank ⊢
    exact ⟨f.assets c, isCandidate_iff.2 ⟨hne, hrank⟩, rfl⟩
  · rintro ⟨a, ha, rfl⟩
    obtain ⟨hne, hrank⟩ := isCandidate_iff.1 ha
    exact ⟨⟨(assetsText a, feedsAbout c feeds ticker a),
      SortedMap.mem_toList_groupBy.2 ⟨(hgroup a).symm, hne⟩, rfl⟩, hrank⟩

/-- The key that the feeds of a ticker select is that of the pair of assets that wins. -/
theorem wins_of_winner?
    (h : winner? c (feeds.filter fun f ↦ f.tickerText = ticker) = some key) :
    ∃ a, key = assetsText a ∧ Wins c feeds ticker a := by
  obtain ⟨e, he, rfl⟩ := Option.map_eq_some_iff.1 h
  have hleast := isFirstLeast_of_leastBy? he
  obtain ⟨a, ha, rfl⟩ := mem_ranks_iff.1 hleast.mem
  refine ⟨a, rfl, ha, fun b hb hne r s hr hs ↦ ?_⟩
  rw [hr.unique (IdentityRank.isBest_ofFeeds (isCandidate_iff.1 ha).1),
    hs.unique (IdentityRank.isBest_ofFeeds (isCandidate_iff.1 hb).1), ← compareIdentity_eq_lt_iff]
  have hle := hleast.isLE (mem_ranks_iff.2 ⟨b, hb, rfl⟩)
  cases hlt : compareIdentity (assetsText a, IdentityRank.ofFeeds (feedsAbout c feeds ticker a))
      (assetsText b, IdentityRank.ofFeeds (feedsAbout c feeds ticker b)) with
  | lt => rfl
  | gt => simp [hlt] at hle
  | eq =>
    rw [compareIdentity, Ordering.then_eq_eq, Ordering.then_eq_eq] at hlt
    exact absurd (assetsText_injective (Std.LawfulEqCmp.eq_of_compare hlt.2.2)).symm hne

/-- No key is selected exactly if no pair of assets has a ranked base. -/
theorem winner?_eq_none_iff :
    winner? c (feeds.filter fun f ↦ f.tickerText = ticker) = none ↔
      ∀ a, ¬IsCandidate c feeds ticker a := by
  rw [winner?, Option.map_eq_none_iff, leastBy?_eq_none_iff, List.eq_nil_iff_forall_not_mem]
  constructor
  · intro h a ha
    exact h _ (mem_ranks_iff.2 ⟨a, ha, rfl⟩)
  · intro h e he
    obtain ⟨a, ha, -⟩ := mem_ranks_iff.1 he
    exact h a ha

theorem getD_winners (c : Config) (feeds : List Feed) (ticker : String) :
    (winners c feeds).getD ticker none =
      winner? c (feeds.filter fun f ↦ f.tickerText = ticker) := by
  rw [winners, SortedMap.getD, SortedMap.get?_mapValues, SortedMap.get?_groupBy]
  split
  · next hnil =>
    rw [hnil]
    rfl
  · rfl

/-- The stage selects the key of the pair of assets that wins, or none if there is no candidate. -/
theorem exists_winner (c : Config) (feeds : List Feed) (ticker : String) :
    ∃ w : Option (UInt64 × UInt64), (winners c feeds).getD ticker none = w.map assetsText ∧
      (∀ a, w = some a ↔ Wins c feeds ticker a) ∧
      (w = none ↔ ∀ a, ¬IsCandidate c feeds ticker a) := by
  rw [getD_winners]
  cases hw : winner? c (feeds.filter fun f ↦ f.tickerText = ticker) with
  | none =>
    have hnone := winner?_eq_none_iff.1 hw
    refine ⟨none, rfl, fun a ↦ ⟨fun h ↦ ?_, fun h ↦ absurd h.candidate (hnone a)⟩, ?_⟩
    · cases h
    · exact ⟨fun _ ↦ hnone, fun _ ↦ rfl⟩
  | some key =>
    obtain ⟨a, rfl, ha⟩ := wins_of_winner? hw
    refine ⟨some a, rfl, fun b ↦ ?_, fun h ↦ ?_, fun h ↦ ?_⟩
    · constructor
      · rintro ⟨⟩
        exact ha
      · intro hb
        rw [ha.unique hb]
    · cases h
    · exact absurd ha.candidate (h a)

/-! ## The order of the feeds -/

theorem IdentityRank.IsBest.of_mem_iff {r : IdentityRank} {feeds' : List Feed}
    (h : r.IsBest feeds) (hmem : ∀ f, f ∈ feeds' ↔ f ∈ feeds) : r.IsBest feeds' := by
  constructor
  · simpa only [hmem] using h.base
  · simpa only [hmem] using h.quote

/-- Which pair of assets wins a ticker is told by what feeds there are. -/
theorem Wins.of_mem_iff {feeds' : List Feed} (h : Wins c feeds ticker a)
    (hmem : ∀ f, f ∈ feeds' ↔ f ∈ feeds) : Wins c feeds' ticker a := by
  have habout : ∀ b f, f ∈ feedsAbout c feeds' ticker b ↔ f ∈ feedsAbout c feeds ticker b := by
    intro b f
    rw [mem_feedsAbout, mem_feedsAbout, hmem]
  have hcandidate : ∀ b, IsCandidate c feeds' ticker b ↔ IsCandidate c feeds ticker b := by
    intro b
    simp only [IsCandidate, habout]
  refine ⟨(hcandidate a).2 h.candidate, fun b hb hne r s hr hs ↦ ?_⟩
  exact h.first b ((hcandidate b).1 hb) hne r s (hr.of_mem_iff fun f ↦ (habout a f).symm)
    (hs.of_mem_iff fun f ↦ (habout b f).symm)

/-! ## What the stage keeps and logs -/

/-- How a feed is judged if the pair of assets `a` wins its ticker. -/
def judgeAlias (c : Config) (f : Feed) (a : UInt64 × UInt64) : Feed × Option String :=
  (f, if a = f.assets c then none
    else some s!"naming alias {assetsText (f.assets c)} superseded by {assetsText a}")

/-- What is logged of a ticker if the pair of assets `w` wins it: the feeds about other pairs, and
nothing if no pair wins. -/
def superseded (c : Config) (feeds : List Feed) (ticker : String) :
    Option (UInt64 × UInt64) → List (Drop Feed)
  | none => []
  | some a => (feeds.filter fun f ↦ f.tickerText = ticker ∧ f.assets c ≠ a).map fun f ↦
      DropLog.ofFeed f s!"naming alias {assetsText (f.assets c)} superseded by {assetsText a}"

section Judged

variable {winner : String → Option (UInt64 × UInt64)}

/-- The stage in terms of the pairs of assets that win. -/
theorem resolveAliases_eq
    (hkey : ∀ ticker, (winners c feeds).getD ticker none = (winner ticker).map assetsText) :
    resolveAliases c feeds =
      .ok (sift (feeds.filterMap fun f ↦ (winner f.tickerText).map (judgeAlias c f))) := by
  simp only [resolveAliases, hkey, Option.map_map, Function.comp_def, identityKey_eq,
    assetsText_injective.eq_iff]
  rfl

/-- A feed is kept if it is about the winning pair of assets of its ticker. -/
theorem sift_judgeAlias_fst (c : Config) (feeds : List Feed) :
    (sift (feeds.filterMap fun f ↦ (winner f.tickerText).map (judgeAlias c f))).1 =
      feeds.filter fun f ↦ winner f.tickerText = some (f.assets c) := by
  rw [sift, ← List.filterMap_eq_map, ← List.filterMap_eq_filter, ← List.filterMap_eq_filter,
    List.filterMap_filterMap, List.filterMap_filterMap]
  refine List.filterMap_congr fun f _ ↦ ?_
  cases hw : winner f.tickerText with
  | none => simp [Option.guard, hw]
  | some a => by_cases ha : a = f.assets c <;> simp [Option.guard, judgeAlias, hw, ha]

/-- A feed is logged under its ticker if another pair of assets wins there. -/
theorem getD_sift_judgeAlias (c : Config) (feeds : List Feed) (ticker : String) :
    (sift (feeds.filterMap fun f ↦ (winner f.tickerText).map (judgeAlias c f))).2.getD ticker [] =
      superseded c feeds ticker (winner ticker) := by
  rw [getD_sift_snd, ← List.filterMap_eq_filter, List.filterMap_filterMap,
    List.filterMap_filterMap]
  cases hw : winner ticker with
  | none =>
    rw [superseded, List.filterMap_eq_nil_iff]
    intro f _
    by_cases hf : f.tickerText = ticker
    · rw [hf, hw]
      rfl
    · cases winner f.tickerText <;> simp [Option.guard, judgeAlias, hf]
  | some a =>
    rw [superseded, ← List.filterMap_eq_map, ← List.filterMap_eq_filter, List.filterMap_filterMap]
    refine List.filterMap_congr fun f _ ↦ ?_
    by_cases hf : f.tickerText = ticker
    · by_cases ha : a = f.assets c
      · simp [Option.guard, judgeAlias, hf, hw, ha]
      · simp [Option.guard, judgeAlias, hf, hw, ha, Ne.symm ha]
    · cases winner f.tickerText <;> simp [Option.guard, judgeAlias, hf]

end Judged

/-- Each ticker has at most one winning pair of assets, and it has one as soon as some feed of the
ticker has a ranked base.  The stage keeps the feeds about the winning pair of their ticker in their
order and logs the other feeds of such a ticker, each once.  A ticker without a winning pair is left
out and nothing of it is logged.  The order of the feeds has no influence on which of them are
kept. -/
theorem resolveAliases_winners (c : Config) (feeds : List Feed) :
    ∃ (winner : String → Option (UInt64 × UInt64)) (kept : List Feed) (log : RemovalLog),
      (∀ ticker a, winner ticker = some a ↔ Wins c feeds ticker a) ∧
      (∀ ticker, winner ticker = none ↔ ∀ a, ¬IsCandidate c feeds ticker a) ∧
      resolveAliases c feeds = .ok (kept, log) ∧
      kept = feeds.filter (fun f ↦ winner f.tickerText = some (f.assets c)) ∧
      (∀ ticker, log.getD ticker [] = superseded c feeds ticker (winner ticker)) ∧
      ∀ feeds' : List Feed, feeds'.Perm feeds →
        ∃ kept' log', resolveAliases c feeds' = .ok (kept', log') ∧ kept'.Perm kept := by
  choose winner hkey hwins hnone using exists_winner c feeds
  refine ⟨winner, _, _, hwins, hnone, resolveAliases_eq hkey, sift_judgeAlias_fst c feeds,
    getD_sift_judgeAlias c feeds, fun feeds' hperm ↦ ?_⟩
  choose winner' hkey' hwins' hnone' using exists_winner c feeds'
  have hwinner : winner' = winner := by
    funext ticker
    apply Option.ext
    intro a
    rw [hwins, hwins']
    constructor
    · exact fun h ↦ h.of_mem_iff fun f ↦ hperm.mem_iff.symm
    · exact fun h ↦ h.of_mem_iff fun f ↦ hperm.mem_iff
  refine ⟨_, _, resolveAliases_eq hkey', ?_⟩
  rw [hwinner]
  show (sift _).1.Perm (sift _).1
  rw [sift_judgeAlias_fst, sift_judgeAlias_fst]
  exact hperm.filter _

/-- Three assets under one symbol, one of them without a rank, and an asset without a rank. -/
def homonymFeeds : List Feed :=
  [{ Feed.ofPrice ⟨"PEPE", "USD"⟩ "okx" "PEPE-USD" 1.0 with cmc := ⟨9999, 0, 900, 0⟩ },
    { Feed.ofPrice ⟨"PEPE", "USD"⟩ "kraken" "PEPEUSD" 1.0 with cmc := ⟨24478, 0, 30, 0⟩ },
    { Feed.ofPrice ⟨"PEPE", "USD"⟩ "binance" "PEPEUSD" 1.0 with cmc := ⟨7777, 0, 0, 0⟩ },
    { Feed.ofPrice ⟨"DUST", "USD"⟩ "kraken" "DUSTUSD" 1.0 with cmc := ⟨5, 0, 0, 0⟩ }]

theorem resolveAliases_homonymFeeds :
    (resolveAliases .standard homonymFeeds).map
      (fun out ↦ (out.1.map Feed.venue, out.2.toList.map fun e ↦ (e.1, e.2.map (·.provider)))) =
      .ok (["kraken"], [("PEPE/USD", ["okx", "binance"])]) := by
  decide +kernel

/-- Of three assets under one symbol that of the best rank wins, and the ticker without a rank is
left out. -/
theorem resolveAliases_winners_homonyms :
    ∃ (winner : String → Option (UInt64 × UInt64)) (kept kept' : List Feed) (log log' : RemovalLog),
      homonymFeeds.reverse.Perm homonymFeeds ∧
      (∀ ticker a, winner ticker = some a ↔ Wins .standard homonymFeeds ticker a) ∧
      resolveAliases .standard homonymFeeds = .ok (kept, log) ∧ kept.map Feed.venue = ["kraken"] ∧
      kept = homonymFeeds.filter (fun f ↦ winner f.tickerText = some (f.assets .standard)) ∧
      (∀ ticker, log.getD ticker [] =
        superseded .standard homonymFeeds ticker (winner ticker)) ∧
      resolveAliases .standard homonymFeeds.reverse = .ok (kept', log') ∧ kept'.Perm kept := by
  obtain ⟨winner, kept, log, hwins, -, hrun, hkept, hlog, hperm⟩ :=
    resolveAliases_winners .standard homonymFeeds
  obtain ⟨kept', log', hrun', hkept'⟩ := hperm _ homonymFeeds.reverse_perm
  have hvenues := resolveAliases_homonymFeeds
  rw [hrun] at hvenues
  exact ⟨winner, kept, kept', log, log', homonymFeeds.reverse_perm, hwins, hrun,
    (Prod.mk.inj (Except.ok.inj hvenues)).1, hkept, hlog, hrun', hkept'⟩

end OracleMarkets
