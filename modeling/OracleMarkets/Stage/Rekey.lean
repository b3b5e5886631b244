import OracleMarkets.Stage.Basic

/-!
# Re-keying on-chain markets

The off-chain ticker of an on-chain venue is itself a pair, of the very assets that are priced.  A
market whose only provider is such a venue gets that pair, and what was normalized by it before
follows it to its new name.
-/

namespace OracleMarkets

/-- Whether the only provider of a market is an on-chain venue. -/
def isSingleDefi (c : Config) (market : Market) : Bool :=
  match market.providers with
  | [p] => c.isDefi p.name
  | _ => false

/-- The pair that a provider's off-chain ticker tells, turned over if the provider is, and in the
quote that the provider is normalized to. -/
def defiPair? (p : ProviderConfig) : Option CurrencyPair := do
  let pair ← CurrencyPair.ofText? p.offChainTicker
  let pair := if p.invert then pair.inverted else pair
  return match p.normalizeBy with
    | some n => { pair with quote := n.quote }
    | none => pair

/-- Where re-keying stands: the markets so far, what was left out, and the new pair of each pair
that got another one. -/
structure Rekeying where
  kept : MarketMap
  exclusions : ExclusionLog
  /-- New pairs, by the pairs they replace. -/
  renames : SortedMap CurrencyPair CurrencyPair

/-- Puts a market under the pair of its only provider, unless that name is taken.  A market without
such a pair is left out without a record. -/
def Rekeying.add (r : Rekeying) (market : Market) : Rekeying :=
  match market.providers.head?.bind defiPair? with
  | none => r
  | some pair =>
    if r.kept.contains pair.text then
      { r with
        exclusions := r.exclusions.recordMarket market s!"defi ticker {pair.text} already present" }
    else
      { r with
        kept := r.kept.insert pair.text { market with ticker := { market.ticker with pair } }
        renames :=
          if pair = market.ticker.pair then r.renames
            else r.renames.insert market.ticker.pair pair }

/-- The provider with the pair it is normalized by under its new name. -/
def ProviderConfig.follow (renames : SortedMap CurrencyPair CurrencyPair) (p : ProviderConfig) :
    ProviderConfig :=
  { p with normalizeBy := p.normalizeBy.map fun pair ↦ renames.getD pair pair }

/-- Gives every market with a single on-chain provider the pair of that provider. -/
def rekeyDefiMarkets : MarketStage := fun c m ↦
  let kept := m.filter fun _ market ↦ !isSingleDefi c market
  let defi := m.values.filter (isSingleDefi c)
  let r := defi.foldl Rekeying.add ⟨kept, ∅, ∅⟩
  .ok (r.kept.mapValues fun _ market ↦
    { market with providers := market.providers.map (ProviderConfig.follow r.renames) },
    r.exclusions)

end OracleMarkets
