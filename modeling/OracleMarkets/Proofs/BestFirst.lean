import OracleMarkets.Proofs.Ranking

/-!
# The best feed first

A feed is compared by three keys one after another: the rank of its base, its depth and its volume.
So being better is a strict weak order, and feeds of which neither is better (`Feed.Ties`) have the
same three keys.  Doubles are the same key only if they have the same bits (`compareTotal_eq_eq`),
and any two of them can be compared, also infinities, signed zeros and what is no number.  Sorting
by rank puts the better feed first and leaves ties in their order (`Feed.BestFirst`).
-/

namespace OracleMarkets

/-! ## Doubles in order -/

theorem shiftRight_eq_one_iff (b : UInt64) : b >>> 63 = 1 ↔ 0x8000000000000000 ≤ b.toNat := by
  have hlt := b.toNat_lt
  rw [← UInt64.toNat_inj, UInt64.toNat_shiftRight]
  simp only [UInt64.reduceToNat, Nat.mod_succ, Nat.shiftRight_eq_div_pow, Nat.reducePow]
  omega

/-- Doubles without a sign have the greater keys in the order of their bits, and those with a sign
the lesser ones in the opposite order. -/
theorem toNat_totalOrderKey (x : Float) :
    (totalOrderKey x).toNat =
      if 0x8000000000000000 ≤ x.toBits.toNat then 0xFFFFFFFFFFFFFFFF - x.toBits.toNat
      else 0x8000000000000000 + x.toBits.toNat := by
  have hneg : Decimal.isNegative x = true ↔ 0x8000000000000000 ≤ x.toBits.toNat := by
    rw [Decimal.isNegative, beq_iff_eq, shiftRight_eq_one_iff]
  rw [totalOrderKey]
  by_cases h : 0x8000000000000000 ≤ x.toBits.toNat
  · rw [if_pos (hneg.2 h), if_pos h, UInt64.toNat_not]
    rfl
  · rw [if_neg (mt hneg.1 h), if_neg h, UInt64.toNat_or, Nat.or_comm]
    have hlt : x.toBits.toNat < 2 ^ 63 := Nat.not_le.1 h
    exact (Nat.two_pow_add_eq_or_of_lt hlt 1).symm

/-- Doubles compare as equal exactly if they have the same bits. -/
theorem compareTotal_eq_eq {x y : Float} : compareTotal x y = .eq ↔ x.toBits = y.toBits := by
  have hx := x.toBits.toNat_lt
  have hy := y.toBits.toNat_lt
  rw [compareTotal, Std.compare_eq_iff_eq, ← UInt64.toNat_inj, ← UInt64.toNat_inj,
    toNat_totalOrderKey, toNat_totalOrderKey]
  split <;> split <;> omega

example : compareTotal (-0.0) 0.0 = .lt ∧ compareTotal (1.0 / 0.0) (0.0 / 0.0) = .lt := by
  decide +kernel

namespace Feed

variable {f g h : Feed}

/-! ## Better feeds -/

/-- The better feed is the lesser one. -/
theorem isBeatenBy_iff : f.isBeatenBy g = true ↔ g.compareRank f = .lt := by
  rw [isBeatenBy, beq_iff_eq, Std.OrientedCmp.gt_iff_lt]

theorem isBeatenBy_self (f : Feed) : f.isBeatenBy f = false := by
  have hself : f.compareRank f = .eq := Std.ReflCmp.compare_self
  rw [isBeatenBy, hself]
  rfl

/-- Of two feeds at most one is better than the other. -/
theorem isBeatenBy_asymm (hg : f.isBeatenBy g = true) : g.isBeatenBy f = false := by
  rw [isBeatenBy, isBeatenBy_iff.1 hg]
  rfl

/-- What is better than a better feed is better. -/
theorem isBeatenBy_trans (hg : f.isBeatenBy g = true) (hh : g.isBeatenBy h = true) :
    f.isBeatenBy h = true :=
  isBeatenBy_iff.2 (Std.TransCmp.lt_trans (isBeatenBy_iff.1 hh) (isBeatenBy_iff.1 hg))

/-! ## Ties -/

/-- Neither of the feeds is better than the other. -/
def Ties (f g : Feed) : Prop := f.isBeatenBy g = false ∧ g.isBeatenBy f = false

instance (f g : Feed) : Decidable (f.Ties g) :=
  inferInstanceAs (Decidable (f.isBeatenBy g = false ∧ g.isBeatenBy f = false))

/-- Feeds tie exactly if their ranks compare as equal. -/
theorem ties_iff_compareRank : f.Ties g ↔ f.compareRank g = .eq := by
  have hswap : g.compareRank f = (f.compareRank g).swap := Std.OrientedCmp.eq_swap
  rw [Ties, isBeatenBy, isBeatenBy, hswap]
  cases f.compareRank g <;> decide

/-- Feeds tie exactly if their bases have the same rank, their books the same depth and their days
the same volume. -/
theorem ties_iff : f.Ties g ↔
    effectiveRank f.cmc.baseRank = effectiveRank g.cmc.baseRank ∧
      f.liquidity.total.toBits = g.liquidity.total.toBits ∧
      f.usdVolume.toBits = g.usdVolume.toBits := by
  rw [ties_iff_compareRank, compareRank, Ordering.then_eq_eq, Ordering.then_eq_eq,
    Std.compare_eq_iff_eq, compareTotal_eq_eq, compareTotal_eq_eq,
    eq_comm (a := g.liquidity.total.toBits), eq_comm (a := g.usdVolume.toBits)]

/-- Ties are an equivalence, although they are told by comparisons of doubles. -/
theorem equivalence_ties : Equivalence Ties := by
  constructor
  · intro f
    exact ties_iff.2 ⟨rfl, rfl, rfl⟩
  · intro f g hfg
    obtain ⟨hrank, hdepth, hvolume⟩ := ties_iff.1 hfg
    exact ties_iff.2 ⟨hrank.symm, hdepth.symm, hvolume.symm⟩
  · intro f g h hfg hgh
    obtain ⟨hrank, hdepth, hvolume⟩ := ties_iff.1 hfg
    obtain ⟨hrank', hdepth', hvolume'⟩ := ties_iff.1 hgh
    exact ties_iff.2 ⟨hrank.trans hrank', hdepth.trans hdepth', hvolume.trans hvolume'⟩

/-! ## Sorting -/

/-- `ranked` are the feeds `given` with the best first. -/
structure BestFirst (given ranked : List Feed) : Prop where
  perm : ranked.Perm given
  /-- No feed is better than one that stands before it. -/
  unbeaten : ranked.Pairwise fun f g ↦ f.isBeatenBy g = false
  /-- Feeds that tie keep their order. -/
  stable : ∀ f : Feed, (ranked.filter fun g ↦ f.Ties g) = given.filter fun g ↦ f.Ties g

theorem bestFirst_sortByRank (feeds : List Feed) : BestFirst feeds (sortByRank feeds) := by
  constructor
  · exact sortByRank_perm feeds
  · refine (pairwise_sortByRank feeds).imp fun hle ↦ ?_
    rw [← Bool.not_eq_true', not_isBeatenBy]
    exact hle
  · intro f
    refine filter_mergeSort_of_isLE compareRank (fun g h hg hh ↦ ?_) feeds
    -- Among feeds that tie with `f`, the order asks for nothing.
    have htie := equivalence_ties.trans (equivalence_ties.symm (of_decide_eq_true hg))
      (of_decide_eq_true hh)
    rw [ties_iff_compareRank.1 htie]
    rfl

/-- Being better is a strict weak order: no feed is better than itself, of two feeds at most one is
better, what is better than a better feed is better, and ties are an equivalence.  The better feed
is the one that compares as less, and sorting by rank puts it first. -/
theorem isBeatenBy_ranks :
    (∀ f : Feed, f.isBeatenBy f = false) ∧
    (∀ f g : Feed, f.isBeatenBy g = true → g.isBeatenBy f = false) ∧
    (∀ f g h : Feed, f.isBeatenBy g = true → g.isBeatenBy h = true → f.isBeatenBy h = true) ∧
    Equivalence Ties ∧
    (∀ f g : Feed, f.isBeatenBy g = true ↔ g.compareRank f = .lt) ∧
    ∀ feeds, BestFirst feeds (sortByRank feeds) :=
  ⟨isBeatenBy_self, fun _ _ ↦ isBeatenBy_asymm, fun _ _ _ ↦ isBeatenBy_trans, equivalence_ties,
    fun _ _ ↦ isBeatenBy_iff, bestFirst_sortByRank⟩

/-- A feed of bitcoin with the given rank and with the given depth on each side. -/
def ofRank (rank : UInt64) (depth : Float) : Feed :=
  { ofPrice ⟨"BTC", "USD"⟩ "kraken" "BTC-USD" 1.0 with
    liquidity := ⟨depth, depth⟩
    cmc := ⟨1, 0, rank, 0⟩ }

/-- A feed without a rank is beaten by any with one, however deep it is; of equal ranks the deeper
feed is better. -/
theorem isBeatenBy_ranks_small :
    (ofRank 0 9.0).isBeatenBy (ofRank 2 0.0) = true ∧
      (ofRank 2 0.0).isBeatenBy (ofRank 2 1.0) = true ∧
      (ofRank 2 1.0).isBeatenBy (ofRank 2 0.0) = false ∧
      (ofRank 0 9.0).isBeatenBy (ofRank 2 1.0) = true ∧
      (sortByRank [ofRank 0 9.0, ofRank 2 0.0, ofRank 2 1.0]).Pairwise
        fun f g ↦ f.isBeatenBy g = false := by
  have hranked : (ofRank 0 9.0).isBeatenBy (ofRank 2 0.0) = true := by decide +kernel
  have hdeeper : (ofRank 2 0.0).isBeatenBy (ofRank 2 1.0) = true := by decide +kernel
  obtain ⟨-, hasymm, htrans, -, -, hsorted⟩ := isBeatenBy_ranks
  exact ⟨hranked, hdeeper, hasymm _ _ hdeeper, htrans _ _ _ hranked hdeeper, (hsorted _).unbeaten⟩

end Feed

end OracleMarkets
