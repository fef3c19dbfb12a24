import Mathlib.Algebra.Order.Floor.Ring
import Mathlib.Data.List.Infix
import Mathlib.Data.Rat.Floor
import Mathlib.Tactic.Linarith
import Mathlib.Tactic.NormNum

/-!
# The hardware profile

The profile of a host is a row of the table of measured two-card hosts, or is fitted to the memory of the smallest card.
The preflight rejects a host whose card cannot hold the trunk, the KV cache, the headroom and the fewest experts.

* `chooseProfile`: the profile of a host;
* `problems`: the preflight;
* `footprint`: what a card holds, by the measured model;
* `fitGpuExperts_spec`: a fitted count fills the budget and no more;
* `preflight_footprint`: what an accepted host has room for.
-/

namespace ExpertServe.HardwareProfile

/-! ## The host -/

structure Gpu where
  name : List Char
  /-- MiB. -/
  memory : ℤ
  computeCap : ℚ

/-- What the script reads of the machine. The GPUs are those that `CUDA_VISIBLE_DEVICES` leaves, the NUMA nodes are
sorted. -/
structure Host where
  gpus : List Gpu
  memGib : ℚ
  availableCpus : ℕ
  numaNodes : List String
  avx512Vnni : Bool
  avx2 : Bool
  fma : Bool
  /-- `RUNGLM_ALLOW_AVX2`. -/
  allowAvx2 : Bool

/-- `--weights-dir`: whether it exists, and the GiB free on its disk. -/
structure WeightsDir where
  there : Bool
  free : ℚ

namespace Host

variable (host : Host)

def minimumMib : ℤ := (host.gpus.map (·.memory)).min?.getD 0

/-- `" ".join(name.lower() ...)`. -/
def names : List Char := [' '].intercalate (host.gpus.map fun gpu => gpu.name.map Char.toLower)

def mentions (word : List Char) : Prop := word <:+: host.names

instance (word : List Char) : Decidable (host.mentions word) := inferInstanceAs (Decidable (_ <:+: _))

def minComputeCap : ℚ := (host.gpus.map (·.computeCap)).min?.getD 0

end Host

/-! ## The model of a card -/

def trunkTotalMib : ℚ := 35000

def expertFullMib : ℚ := 189 / 10

def moeLayers : ℚ := 75

def kvMibPerToken : ℚ := 44 / 1024

def headroomMib : ℚ := 12000

def minGpuExperts : ℤ := 4

/-- MiB on a card with `gpuExperts` experts of each layer resident. -/
def footprint (tp : ℕ) (gpuExperts : ℤ) (maxTokens : ℕ) : ℚ :=
  trunkTotalMib / tp + gpuExperts * moeLayers * expertFullMib / tp + maxTokens * kvMibPerToken + headroomMib

def cardFloorMib (tp : ℕ) (maxTokens : ℕ) : ℚ :=
  let tp := max 1 tp
  trunkTotalMib / tp + maxTokens * kvMibPerToken + headroomMib + minGpuExperts * moeLayers * expertFullMib / tp

def validTpLoop (count : ℕ) : ℕ → ℕ → ℕ
  | 0, tp => tp
  | fuel + 1, tp => if tp * 2 ≤ max 1 count then validTpLoop count fuel (tp * 2) else tp

/-- The largest power of two that is at most the number of cards. -/
def validTp (count : ℕ) : ℕ := validTpLoop count count 1

/-- `int` of a float. -/
def truncate (x : ℚ) : ℤ := if 0 ≤ x then ⌊x⌋ else ⌈x⌉

def fitGpuExperts (minimumMib : ℤ) (tp : ℕ) (memFraction : ℚ) (maxTokens : ℕ) : ℤ :=
  let tp := max 1 tp
  let budget := minimumMib * memFraction
  let trunk := trunkTotalMib / tp
  let kv := maxTokens * kvMibPerToken
  let avail := budget - trunk - kv - headroomMib
  let perN := moeLayers * expertFullMib / tp
  if avail ≤ 0 ∨ perN ≤ 0 then minGpuExperts
  else max minGpuExperts (min 256 (truncate (avail / perN)))

/-! ## The profile -/

/-- `RUNGLM_PROFILE`. -/
inductive Row where
  | generic
  | twoL40
  | twoH100
  | two48gb
deriving DecidableEq

inductive Backend where
  | hopper
  | ampere
deriving DecidableEq

/-- What `choose_profile` emits. `PLACEMENT` is always `hotcore`, `RUNGLM_TOPK_MODE` always `safe2` and
`CUDA_GRAPH_MAX_BS` always 1. -/
structure Profile where
  row : Row
  tpSize : ℕ
  gpuExperts : ℤ
  memFraction : ℚ
  maxTotalTokens : ℕ
  /-- None is the context length of the model. -/
  contextLength : Option ℕ
  cpuinfer : ℕ
  numaNodes : List String
  maxRunning : ℕ
  gpuPrefillThreshold : ℕ
  /-- The kernels of the GPU, as far as its compute capability pins them. -/
  backend : Option Backend
  /-- `KV_CACHE_DTYPE=auto`. -/
  kvCacheAuto : Bool
  /-- `KT_RAWINT4_BACKEND=avx2_packed` and its variant. -/
  avx2Packed : Bool

def chooseProfile (host : Host) (adaptive : Bool) : Profile :=
  let count := host.gpus.length
  let minimumMib := host.minimumMib
  let cpus := host.availableCpus
  let tp := validTp count
  let numaNodes := if host.numaNodes = [] then ["0"] else host.numaNodes
  let share := cpus - max 4 (cpus / 8)
  let cap := host.minComputeCap
  let backend := if 9 ≤ cap ∧ cap < 10 then some Backend.hopper else if 8 ≤ cap then some Backend.ampere else none
  let base : Profile :=
    { row := .generic
      tpSize := tp
      gpuExperts := 16
      memFraction := 85 / 100
      maxTotalTokens := 8192
      contextLength := some 8192
      cpuinfer := max 1 (min 72 share)
      numaNodes := numaNodes.take 2
      maxRunning := 1
      gpuPrefillThreshold := if minimumMib < 75000 then 0 else 2048
      backend := backend
      kvCacheAuto := backend ≠ some .hopper
      avx2Packed := !host.avx512Vnni && host.avx2 }
  if count = 2 ∧ (host.mentions ['l', '4', '0'] ∨ host.mentions ['6', '0', '0', '0', ' ', 'a', 'd', 'a']) ∧
      45000 ≤ minimumMib then
    { base with row := .twoL40, gpuExperts := 30, memFraction := 88 / 100, cpuinfer := min 56 (max 1 share) }
  else if count = 2 ∧ host.mentions ['h', '1', '0', '0'] ∧ 75000 ≤ minimumMib then
    let maxTokens := if adaptive then 8192 else if minimumMib < 90000 then 16384 else 81920
    { base with
      row := .twoH100
      gpuExperts := if adaptive ∨ minimumMib < 90000 then 96 else 104
      memFraction := if adaptive then 85 / 100 else if 90000 ≤ minimumMib then 95 / 100 else 94 / 100
      maxTotalTokens := maxTokens
      contextLength := if adaptive then none else some maxTokens
      maxRunning := 2
      cpuinfer := if 80 ≤ cpus then 72 else base.cpuinfer }
  else if count = 2 ∧ 45000 ≤ minimumMib then { base with row := .two48gb, gpuExperts := 24 }
  else { base with gpuExperts := fitGpuExperts minimumMib tp base.memFraction base.maxTotalTokens }

/-! ## The preflight -/

/-- What the preflight finds, with the values its messages state. -/
inductive Problem where
  | noGpus
  | belowFloor (budget : ℚ) (minimumMib : ℤ) (memFraction floor : ℚ) (tp : ℕ)
  | computeCapability (cap : ℚ)
  | noAvx512Vnni
  | noAvx2Fma
  | ram (memGib : ℚ) (adaptive : Bool) (required : ℤ)
  | disk (free : ℚ)

def problems (host : Host) (adaptive : Bool) (weightsDir : Option WeightsDir) : List Problem :=
  let chosen := chooseProfile host adaptive
  let tp := validTp host.gpus.length
  let gpus :=
    if host.gpus.length = 0 then [Problem.noGpus]
    else
      let budget := host.minimumMib * chosen.memFraction
      let floor := cardFloorMib tp chosen.maxTotalTokens
      (if budget < floor then [Problem.belowFloor budget host.minimumMib chosen.memFraction floor tp] else []) ++
        if 0 < host.minComputeCap ∧ host.minComputeCap < 8 then [Problem.computeCapability host.minComputeCap] else []
  let flags :=
    if host.avx512Vnni then []
    else if ¬ host.allowAvx2 then [Problem.noAvx512Vnni]
    else if host.avx2 ∧ host.fma then []
    else [Problem.noAvx2Fma]
  let required : ℤ := if adaptive then 430 else max 240 (truncate (410 - 138 / 100 * chosen.gpuExperts))
  let ram := if host.memGib < required then [Problem.ram host.memGib adaptive required] else []
  let disk :=
    match weightsDir with
    | some dir => if dir.free < 390 ∧ ¬ dir.there then [Problem.disk dir.free] else []
    | none => []
  gpus ++ flags ++ ram ++ disk

/-- The problem is one of the check of the VRAM. -/
def Problem.isVram : Problem → Bool
  | .noGpus => true
  | .belowFloor _ _ _ _ _ => true
  | _ => false

/-- The VRAM check passes. -/
def Accepted (host : Host) (adaptive : Bool) (weightsDir : Option WeightsDir) : Prop :=
  ∀ p ∈ problems host adaptive weightsDir, p.isVram = false

/-- What the profile may use of the smallest card. -/
def budget (host : Host) (adaptive : Bool) : ℚ := host.minimumMib * (chooseProfile host adaptive).memFraction

/-- What the profile puts on a card. -/
def emitted (host : Host) (adaptive : Bool) : ℚ :=
  footprint (chooseProfile host adaptive).tpSize (chooseProfile host adaptive).gpuExperts
    (chooseProfile host adaptive).maxTotalTokens

/-! ## The tensor-parallel size -/

theorem validTpLoop_pos {count fuel tp : ℕ} (h : 0 < tp) : 0 < validTpLoop count fuel tp := by
  induction fuel generalizing tp with
  | zero => exact h
  | succ fuel ih =>
    unfold validTpLoop
    split
    · exact ih (by omega)
    · exact h

theorem validTp_pos (count : ℕ) : 0 < validTp count := validTpLoop_pos Nat.one_pos

/-- The loop ends below the count, with no larger power of two left. -/
theorem validTpLoop_spec {count fuel tp : ℕ} (h0 : 0 < tp) (hle : tp ≤ max 1 count)
    (hfuel : max 1 count < tp + fuel + 1) :
    validTpLoop count fuel tp ≤ max 1 count ∧ max 1 count < 2 * validTpLoop count fuel tp := by
  induction fuel generalizing tp with
  | zero =>
    show tp ≤ max 1 count ∧ max 1 count < 2 * tp
    omega
  | succ fuel ih =>
    unfold validTpLoop
    split
    · exact ih (by omega) (by omega) (by omega)
    · omega

theorem validTp_spec (count : ℕ) : validTp count ≤ max 1 count ∧ max 1 count < 2 * validTp count :=
  validTpLoop_spec Nat.one_pos (by omega) (by omega)

/-! ## The footprint -/

theorem cardFloorMib_eq {tp : ℕ} (h : 0 < tp) (maxTokens : ℕ) :
    cardFloorMib tp maxTokens = footprint tp minGpuExperts maxTokens := by
  unfold cardFloorMib footprint
  rw [Nat.max_eq_right h]
  ring

theorem perN_pos {tp : ℕ} (h : 0 < tp) : 0 < moeLayers * expertFullMib / tp := by
  unfold moeLayers expertFullMib
  positivity

/-- The counts that fit a budget are those up to the fitted quotient. -/
theorem footprint_le_iff {tp : ℕ} (h : 0 < tp) (n : ℤ) (maxTokens : ℕ) (budget : ℚ) :
    footprint tp n maxTokens ≤ budget ↔ n ≤
      ⌊(budget - trunkTotalMib / tp - maxTokens * kvMibPerToken - headroomMib) / (moeLayers * expertFullMib / tp)⌋ := by
  have hassoc : (n : ℚ) * moeLayers * expertFullMib / tp = n * (moeLayers * expertFullMib / tp) := by ring
  rw [Int.le_floor, le_div_iff₀ (perN_pos h)]
  unfold footprint
  rw [hassoc]
  constructor
  · intro hle
    linarith
  · intro hle
    linarith

theorem minGpuExperts_le_fit (minimumMib : ℤ) (tp : ℕ) (memFraction : ℚ) (maxTokens : ℕ) :
    minGpuExperts ≤ fitGpuExperts minimumMib tp memFraction maxTokens := by
  unfold fitGpuExperts
  dsimp only
  split
  · exact le_refl _
  · exact le_max_left _ _

/-- Where the fewest experts fit the fitted count fits, and one more does not unless it is all of a layer. -/
theorem fitGpuExperts_spec {minimumMib : ℤ} {tp : ℕ} (htp : 0 < tp) (memFraction : ℚ) (maxTokens : ℕ)
    (hfloor : footprint tp minGpuExperts maxTokens ≤ minimumMib * memFraction) :
    footprint tp (fitGpuExperts minimumMib tp memFraction maxTokens) maxTokens ≤ minimumMib * memFraction ∧
      (fitGpuExperts minimumMib tp memFraction maxTokens < 256 →
        ¬ footprint tp (fitGpuExperts minimumMib tp memFraction maxTokens + 1) maxTokens ≤
          minimumMib * memFraction) := by
  have hper := perN_pos htp
  have hmin := (footprint_le_iff htp _ maxTokens _).mp hfloor
  rw [footprint_le_iff htp, footprint_le_iff htp]
  unfold fitGpuExperts
  rw [Nat.max_eq_right htp]
  dsimp only
  have hroom := Int.le_floor.mp hmin
  have hpos : (0 : ℚ) < ((minGpuExperts : ℤ) : ℚ) := by norm_num [minGpuExperts]
  have havail : 0 < minimumMib * memFraction - trunkTotalMib / tp - maxTokens * kvMibPerToken - headroomMib := by
    by_contra hle
    have := div_nonpos_of_nonpos_of_nonneg (not_lt.mp hle) hper.le
    linarith
  rw [if_neg (by push Not; exact ⟨havail, hper⟩), truncate, if_pos (div_nonneg havail.le hper.le)]
  omega

/-! ## What is accepted -/

@[simp] theorem chooseProfile_tpSize (host : Host) (adaptive : Bool) :
    (chooseProfile host adaptive).tpSize = validTp host.gpus.length := by
  unfold chooseProfile
  dsimp only
  split_ifs <;> rfl

/-- An accepted host has room for the fewest experts of each layer. -/
theorem Accepted.floor {host : Host} {adaptive : Bool} {weightsDir : Option WeightsDir}
    (h : Accepted host adaptive weightsDir) :
    footprint (chooseProfile host adaptive).tpSize minGpuExperts (chooseProfile host adaptive).maxTotalTokens ≤
      budget host adaptive := by
  rw [chooseProfile_tpSize, ← cardFloorMib_eq (validTp_pos _)]
  by_contra hlt
  rw [not_le] at hlt
  unfold Accepted problems at h
  dsimp only at h
  by_cases h0 : host.gpus.length = 0
  · have := h .noGpus (by simp [h0])
    cases this
  · have hlt' : (host.minimumMib : ℚ) * (chooseProfile host adaptive).memFraction <
        cardFloorMib (validTp host.gpus.length) (chooseProfile host adaptive).maxTotalTokens := hlt
    have := h (.belowFloor _ _ _ _ _) (by
      rw [if_neg h0, if_pos hlt']
      simp only [List.append_assoc, List.cons_append, List.nil_append]
      exact List.mem_cons_self)
    cases this

/-- The memory of the smallest card from which the row's own count fits; a fitted count always does. -/
def Room (row : Row) (adaptive : Bool) (minimumMib : ℤ) : Prop :=
  match row with
  | .generic => True
  | .twoL40 => 58085 ≤ minimumMib
  | .two48gb => 55132 ≤ minimumMib
  | .twoH100 => (if adaptive then 115168 else 112348) ≤ minimumMib

theorem validTp_two : validTp 2 = 2 := rfl

/-- The count of every row is at least the fewest. -/
theorem minGpuExperts_le (host : Host) (adaptive : Bool) :
    minGpuExperts ≤ (chooseProfile host adaptive).gpuExperts := by
  unfold chooseProfile
  dsimp only
  split
  · show (4 : ℤ) ≤ 30
    omega
  · split
    · show (4 : ℤ) ≤ if _ then _ else _
      split <;> omega
    · split
      · show (4 : ℤ) ≤ 24
        omega
      · exact minGpuExperts_le_fit _ _ _ _

/-- The four ways to a profile. -/
theorem chooseProfile_cases (host : Host) (adaptive : Bool) :
    let chosen := chooseProfile host adaptive
    (host.gpus.length = 2 ∧ chosen.row = .twoL40 ∧ chosen.gpuExperts = 30 ∧ chosen.memFraction = 88 / 100 ∧
      chosen.maxTotalTokens = 8192) ∨
    (host.gpus.length = 2 ∧ chosen.row = .twoH100 ∧
      chosen.gpuExperts = (if adaptive ∨ host.minimumMib < 90000 then 96 else 104) ∧
      chosen.memFraction = (if adaptive then 85 / 100 else if 90000 ≤ host.minimumMib then 95 / 100 else 94 / 100) ∧
      chosen.maxTotalTokens = if adaptive then 8192 else if host.minimumMib < 90000 then 16384 else 81920) ∨
    (host.gpus.length = 2 ∧ chosen.row = .two48gb ∧ chosen.gpuExperts = 24 ∧ chosen.memFraction = 85 / 100 ∧
      chosen.maxTotalTokens = 8192) ∨
    (chosen.row = .generic ∧
      chosen.gpuExperts = fitGpuExperts host.minimumMib chosen.tpSize chosen.memFraction chosen.maxTotalTokens) := by
  dsimp only
  rw [chooseProfile_tpSize]
  unfold chooseProfile
  dsimp only
  split
  · next h => exact .inl ⟨h.1, rfl, rfl, rfl, rfl⟩
  · split
    · next h => exact .inr (.inl ⟨h.1, rfl, rfl, rfl, rfl⟩)
    · split
      · next h => exact .inr (.inr (.inl ⟨h.1, rfl, rfl, rfl, rfl⟩))
      · exact .inr (.inr (.inr ⟨rfl, rfl⟩))

/-- Two cards: the footprint as a number. -/
theorem footprint_two (n : ℤ) (maxTokens : ℕ) :
    footprint 2 n maxTokens = 29500 + n * (2835 / 4) + maxTokens * (44 / 1024) := by
  unfold footprint trunkTotalMib moeLayers expertFullMib kvMibPerToken headroomMib
  push_cast
  ring

/-- A product with a whole number of MiB passes a bound from the first number that does. -/
theorem le_mul_iff {x memFraction : ℚ} {need m : ℤ} (hpos : 0 < memFraction) (hlo : (need - 1) * memFraction < x)
    (hhi : x ≤ need * memFraction) : x ≤ m * memFraction ↔ need ≤ m := by
  constructor
  · intro hle
    have hlt : ((need : ℚ) - 1) * memFraction < m * memFraction := hlo.trans_le hle
    have hcast : ((need - 1 : ℤ) : ℚ) < m := by
      push_cast
      exact lt_of_mul_lt_mul_right hlt hpos.le
    have := Int.cast_lt.mp hcast
    omega
  · intro hle
    exact hhi.trans (mul_le_mul_of_nonneg_right (Int.cast_le.mpr hle) hpos.le)

/-- **The preflight.** On an accepted host the smallest card has room for the trunk, the KV cache, the headroom and the
fewest experts, and the profile has no fewer. It has room for the count of the profile where that is fitted; a measured
count needs a card larger than the check asks for. -/
theorem preflight_footprint {host : Host} {adaptive : Bool} {weightsDir : Option WeightsDir}
    (h : Accepted host adaptive weightsDir) :
    minGpuExperts ≤ (chooseProfile host adaptive).gpuExperts ∧
    footprint (chooseProfile host adaptive).tpSize minGpuExperts (chooseProfile host adaptive).maxTotalTokens ≤
      budget host adaptive ∧
    (emitted host adaptive ≤ budget host adaptive ↔
      Room (chooseProfile host adaptive).row adaptive host.minimumMib) := by
  refine ⟨minGpuExperts_le host adaptive, h.floor, ?_⟩
  have hfloor := h.floor
  unfold emitted budget at *
  have htp := chooseProfile_tpSize host adaptive
  obtain ⟨h2, hrow, hn, hmem, htokens⟩ | ⟨h2, hrow, hn, hmem, htokens⟩ | ⟨h2, hrow, hn, hmem, htokens⟩ | ⟨hrow, hn⟩ :=
    chooseProfile_cases host adaptive
  · rw [h2, validTp_two] at htp
    rw [htp, hrow, hn, hmem, htokens, footprint_two]
    apply le_mul_iff <;> norm_num
  · rw [h2, validTp_two] at htp
    rw [htp, hrow, hn, hmem, htokens, footprint_two]
    cases adaptive with
    | true => apply le_mul_iff <;> norm_num
    | false =>
      by_cases hsmall : host.minimumMib < 90000
      · -- the footprint is larger than any such card
        have hcast : (host.minimumMib : ℚ) < 90000 := by exact_mod_cast hsmall
        refine iff_of_false ?_ ?_
        · simp only [hsmall, Bool.false_eq_true, false_or, if_true, if_false, if_neg (not_le.mpr hsmall)]
          norm_num
          linarith
        · show ¬ (112348 : ℤ) ≤ host.minimumMib
          omega
      · simp only [hsmall, Bool.false_eq_true, false_or, if_false, if_pos (not_lt.mp hsmall)]
        show _ ↔ (112348 : ℤ) ≤ host.minimumMib
        apply le_mul_iff <;> norm_num
  · rw [h2, validTp_two] at htp
    rw [htp, hrow, hn, hmem, htokens, footprint_two]
    apply le_mul_iff <;> norm_num
  · rw [hrow, hn]
    refine iff_of_true ?_ trivial
    exact (fitGpuExperts_spec (by rw [htp]; exact validTp_pos _) _ _ hfloor).1

/-- One RTX 6000 of 96 GB. -/
def oneRtx6000 : Host where
  gpus := [⟨['R', 'T', 'X', ' ', '6', '0', '0', '0'], 97887, 12⟩]
  memGib := 503
  availableCpus := 64
  numaNodes := ["0", "1"]
  avx512Vnni := true
  avx2 := true
  fma := true
  allowAvx2 := false

/-- Its count is fitted, to 25 experts of each layer. -/
theorem preflight_footprint_oneRtx6000 :
    (chooseProfile oneRtx6000 false).gpuExperts = 25 ∧ emitted oneRtx6000 false ≤ budget oneRtx6000 false := by
  have haccepted : Accepted oneRtx6000 false none := by
    unfold Accepted
    decide +kernel
  have hrow : (chooseProfile oneRtx6000 false).row = .generic := by decide +kernel
  have hfits := (preflight_footprint haccepted).2.2
  rw [hrow] at hfits
  exact ⟨by decide +kernel, hfits.mpr trivial⟩

/-- Two L40 as `nvidia-smi` reports them. -/
def twoL40 : Host where
  gpus := List.replicate 2 ⟨['N', 'V', 'I', 'D', 'I', 'A', ' ', 'L', '4', '0'], 46068, 89 / 10⟩
  memGib := 503
  availableCpus := 128
  numaNodes := ["0", "1"]
  avx512Vnni := true
  avx2 := true
  fma := true
  allowAvx2 := false

/-- Two L40 are accepted, and by the model their 30 experts of each layer do not fit. -/
theorem twoL40_overfull : ¬ ∀ host adaptive weightsDir, Accepted host adaptive weightsDir →
    minGpuExperts ≤ (chooseProfile host adaptive).gpuExperts ∧ emitted host adaptive ≤ budget host adaptive := by
  intro h
  have haccepted : Accepted twoL40 false none := by
    unfold Accepted
    decide +kernel
  have hfits := (h twoL40 false none haccepted).2
  revert hfits
  decide +kernel

end ExpertServe.HardwareProfile
