import Ds4.Engine.SamplerExact

/-!
The token sampler of the Go port (`Sample` in session.go) over an ordered field in the
place of `float32`, with `math.Exp` and the random numbers as parameters.
-/
namespace Ds4.Go
open Sampling

/-- `scored` -/
structure Scored (K : Type) where
  idx : Nat
  val : K

section model
variable {K σ : Type} [Field K] [LinearOrder K]

/-- `Argmax`; an empty slice panics. -/
def argmax : List K → Option Nat
  | [] => none
  | first :: rest => some (Engine.maxLoop rest 1 (first, 0)).2

/-- The inner loop of `partialTopK`, over the entries behind place `j`. -/
def bestLoop : List (Scored K) → Nat → Scored K × Nat → Scored K × Nat
  | [], _, best => best
  | s :: rest, j, best => bestLoop rest (j + 1) (if s.val > best.1.val then (s, j) else best)

/-- `partialTopK`: at each place the largest entry left is swapped in. -/
def partialTopK : Nat → List (Scored K) → List (Scored K)
  | 0, all => all
  | _ + 1, [] => []
  | k + 1, first :: rest =>
    let best := bestLoop rest 1 (first, 0)
    best.1 :: partialTopK k (((first :: rest).set best.2 first).drop 1)

variable (exp : K → K) (logits : List K) (temperature : K) (topK : Int) (topP minP : K)

/-- The entries before softmax. -/
def topEntries : List (Scored K) :=
  let n := logits.length
  let topK := if topK ≤ 0 ∨ topK > n then n else topK.toNat
  let all := logits.zipIdx.map fun entry => ⟨entry.2, entry.1⟩
  if topK < n then (partialTopK topK all).take topK else all

/-- The loop for `maxV`. -/
def largestVal (maxV : K) (all : List (Scored K)) : K := all.foldl (fun maxV s => if s.val > maxV then s.val else maxV) maxV

def softmax (all : List (Scored K)) : List (Scored K) :=
  match all with
  | [] => []
  | first :: rest =>
    let maxV := largestVal first.val rest
    let all := all.map fun s => { s with val := exp ((s.val - maxV) / temperature) }
    let sum := all.foldl (fun (sum : K) s => sum + s.val) 0
    all.map fun s => { s with val := s.val / sum }

/-- The first filter, relative to the first entry. -/
def minPFilter (all : List (Scored K)) : List (Scored K) :=
  match all with
  | [] => []
  | first :: _ =>
    if minP > 0 then
      let threshold := first.val * minP
      let filtered := all.filter fun s => s.val ≥ threshold
      if filtered.length > 0 then filtered else all
    else all

/-- The loop of the second filter: the entries up to the one that reaches `topP`, or all. -/
def cutoffLoop : List (Scored K) → K → List (Scored K)
  | [], _ => []
  | s :: rest, cumul =>
    let cumul := cumul + s.val
    if cumul ≥ topP then [s] else s :: cutoffLoop rest cumul

def topPFilter (all : List (Scored K)) : List (Scored K) := if topP > 0 ∧ topP < 1 then cutoffLoop topP all 0 else all

/-- The entries that `Sample` draws from; `all[0]` of no entries panics. -/
def sampleKept : Option (List (Scored K)) :=
  match topEntries logits topK with
  | [] => none
  | all => some (topPFilter topP (minPFilter minP (softmax exp temperature all)))

def drawFrom (r : K) : List (Scored K) → K → Option Nat
  | [], _ => none
  | s :: rest, cumul =>
    let cumul := cumul + s.val
    if cumul ≥ r then some s.idx else drawFrom r rest cumul

/-- `Sample`; the random number is drawn only with a temperature. -/
def sample (rand : σ → K × σ) (rng : σ) : Option (Nat × σ) :=
  if temperature ≤ 0 then (argmax logits).map fun token => (token, rng)
  else
    (sampleKept exp logits temperature topK topP minP).map fun all =>
      let sum := all.foldl (fun (sum : K) s => sum + s.val) 0
      let (u, rng) := rand rng
      ((drawFrom (u * sum) all 0).getD ((all.getLast?.map (·.idx)).getD 0), rng)

end model

end Ds4.Go
