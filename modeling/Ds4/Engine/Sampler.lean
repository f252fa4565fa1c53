import Mathlib

/-!
The token sampler of the C engine (`sample_top_p_min_p` in ds4.c) over an ordered field
in the place of `float`, with `expf` and `qsort` as parameters. Every logit is finite.
-/
namespace Ds4.Engine
variable {K σ : Type} [Field K] [LinearOrder K]

/-- `DS4_NEG_INF`: a finite number, not an infinity. -/
def negInf : K := -10 ^ 30

structure SampleCandidate (K : Type) where
  id : Nat
  logit : K
  prob : K

/-- The largest value so far and its place, over the values from place `i` on. -/
def maxLoop : List K → Nat → K × Nat → K × Nat
  | [], _, best => best
  | v :: rest, i, best => maxLoop rest (i + 1) (if best.1 < v then (v, i) else best)

def sampleArgmax (logits : List K) : Nat := (maxLoop logits 0 (negInf, 0)).2

def sampleRngNext (state : UInt64) : UInt64 × UInt64 :=
  let x := if state = 0 then 0x9e3779b97f4a7c15 else state
  let x := x ^^^ (x >>> 12)
  let x := x ^^^ (x <<< 25)
  let x := x ^^^ (x >>> 27)
  (x * 0x2545f4914f6cdd1d, x)

def sampleRngF32 (state : UInt64) : K × UInt64 :=
  let (x, state) := sampleRngNext state
  ((((x >>> 40) &&& 0xffffff).toNat : K) / 16777216, state)

/-- `expf((v - max_logit) / temperature)` for the logit `v` of token `i`. -/
def candidate (exp : K → K) (temperature maxLogit : K) (entry : K × Nat) : SampleCandidate K where
  id := entry.2
  logit := entry.1
  prob := exp ((entry.1 - maxLogit) / temperature)

def candidates (exp : K → K) (temperature maxLogit : K) (logits : List K) : List (SampleCandidate K) :=
  logits.zipIdx.map (candidate exp temperature maxLogit)

def sumLoop : List (SampleCandidate K) → K → K
  | [], sum => sum
  | c :: rest, sum => sumLoop rest (sum + c.prob)

/-- How many candidates stay, and their sum. -/
def filterLoop (sum topP minProb : K) : List (SampleCandidate K) → K → Nat → K × Nat
  | [], filteredSum, filtered => (filteredSum, filtered)
  | c :: rest, filteredSum, filtered =>
      if 0 < filtered ∧ c.prob / sum < minProb then (filteredSum, filtered)
      else
        let filteredSum := filteredSum + c.prob
        let filtered := filtered + 1
        if topP ≤ filteredSum / sum then (filteredSum, filtered)
        else filterLoop sum topP minProb rest filteredSum filtered

/-- The candidate at which the draw `r` is used up. -/
def drawLoop : List (SampleCandidate K) → K → Option Nat
  | [], _ => none
  | c :: rest, r =>
      let r := r - c.prob
      if r ≤ 0 then some c.id else drawLoop rest r

/-- The end that both samplers have: the filters over the ranked candidates, then the
draw among those that stay. -/
def sampleFiltered (rngF32 : σ → K × σ) (cand : List (SampleCandidate K)) (sum topP minP : K) (best : Nat) (rng : σ) : Nat × σ :=
  match cand with
  | [] => (best, rng)
  | first :: _ =>
      let minProb := first.prob / sum * (if 0 < minP then minP else 0)
      let (filteredSum, filtered) := filterLoop sum topP minProb cand 0 0
      if filtered = 0 then (best, rng)
      else
        let (u, rng) := rngF32 rng
        let kept := cand.take filtered
        -- past the end the last candidate that stays is returned
        ((drawLoop kept (u * filteredSum)).getD ((kept.getLast?.map (·.id)).getD best), rng)

def sampleFullVocab (exp : K → K) (qsort : List (SampleCandidate K) → List (SampleCandidate K)) (rngF32 : σ → K × σ)
    (logits : List K) (temperature topP minP : K) (rng : σ) : Nat × σ :=
  if logits.length = 0 then (sampleArgmax logits, rng)
  else
    let (maxLogit, best) := maxLoop logits 0 (negInf, 0)
    let cand := candidates exp temperature maxLogit logits
    if 1 ≤ topP then
      let minRel := if 0 < minP then minP else 0
      let passed := cand.filter fun c => ¬c.prob < minRel
      let sum := sumLoop passed 0
      if sum ≤ 0 then (best, rng)
      else
        let (u, rng) := rngF32 rng
        ((drawLoop passed (u * sum)).getD best, rng)
    else
      let sum := sumLoop cand 0
      if sum ≤ 0 then (best, rng) else sampleFiltered rngF32 (qsort cand) sum topP minP best rng

/-- The shift from the end: `shifted` are the entries already moved up by one place, the
others are met last first. -/
def insertShift (new : K × Nat) : List (K × Nat) → List (K × Nat) → List (K × Nat)
  | [], shifted => new :: shifted
  | last :: before, shifted =>
      if last.1 < new.1 then insertShift new before (last :: shifted) else (last :: before).reverse ++ new :: shifted

/-- A full list loses its last entry to a larger one. -/
def insertTopK (topK : Nat) (top : List (K × Nat)) (new : K × Nat) : List (K × Nat) :=
  match top.reverse with
  | [] => insertShift new [] []
  | last :: before =>
      if top.length = topK then if new.1 ≤ last.1 then top else insertShift new before []
      else insertShift new (last :: before) []

def sampleTopPMinP (exp : K → K) (qsort : List (SampleCandidate K) → List (SampleCandidate K)) (rngF32 : σ → K × σ)
    (logits : List K) (temperature : K) (topK : Int) (topP minP : K) (rng : σ) : Nat × σ :=
  if temperature ≤ 0 then (sampleArgmax logits, rng)
  else
    let topP := if topP ≤ 0 ∨ 1 < topP then 1 else topP
    let minP := if minP < 0 then 0 else minP
    if topK ≤ 0 then sampleFullVocab exp qsort rngF32 logits temperature topP minP rng
    else
      let topK := if 1024 < topK then 1024 else topK
      let topK := if logits.length < topK.toNat then logits.length else topK.toNat
      match logits.zipIdx.foldl (insertTopK topK) [] with
      | [] => (sampleArgmax logits, rng)
      | first :: rest =>
          let cand := (first :: rest).map (candidate exp temperature first.1)
          let sum := sumLoop cand 0
          if sum ≤ 0 then (first.2, rng) else sampleFiltered rngF32 cand sum topP minP first.2 rng

end Ds4.Engine
