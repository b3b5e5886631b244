import OracleMarkets.Decimal.Layout
import OracleMarkets.Feed.Basic

/-!
# Ranking feeds

Feeds are put in order in two ways.  By rank, the better feed comes first: the one whose base has
the lower rank, then the one with the deeper order book, then the one with the larger volume.  In
canonical order, feeds are sorted by pair, venue and off-chain ticker.  Both sorts are stable.
-/

namespace OracleMarkets

/-- A number for each double so that larger doubles have larger numbers; negative zero comes before
zero. -/
def totalOrderKey (x : Float) : UInt64 :=
  if Decimal.isNegative x then ~~~x.toBits else x.toBits ||| 0x8000000000000000

def compareTotal (x y : Float) : Ordering := compare (totalOrderKey x) (totalOrderKey y)

/-- The greatest rank, which stands for having none. -/
def unranked : UInt64 := 0xFFFFFFFFFFFFFFFF

/-- The rank by which assets are compared: having no rank is worse than any rank. -/
def effectiveRank (rank : UInt64) : UInt64 := if rank = 0 then unranked else rank

namespace Feed

/-- Compares feeds by rank; the better feed is less. -/
def compareRank (f g : Feed) : Ordering :=
  (compare (effectiveRank f.cmc.baseRank) (effectiveRank g.cmc.baseRank)).then
    ((compareTotal g.liquidity.total f.liquidity.total).then
      (compareTotal g.usdVolume f.usdVolume))

/-- Whether `g` is better than `f`. -/
def isBeatenBy (f g : Feed) : Bool := f.compareRank g == .gt

/-- Whether `f` is as good as `g` or better. -/
def rankLe (f g : Feed) : Bool := (f.compareRank g).isLE

def compareCanonical (f g : Feed) : Ordering :=
  (compare f.pair g.pair).then
    ((compare f.venue g.venue).then
      (compare f.provider.offChainTicker g.provider.offChainTicker))

def canonicalLe (f g : Feed) : Bool := (f.compareCanonical g).isLE

/-- The feeds with the best first; feeds that tie keep their order. -/
def sortByRank (feeds : List Feed) : List Feed := feeds.mergeSort rankLe

/-- The feeds in canonical order; feeds that tie keep their order. -/
def sortCanonical (feeds : List Feed) : List Feed := feeds.mergeSort canonicalLe

end Feed

end OracleMarkets
