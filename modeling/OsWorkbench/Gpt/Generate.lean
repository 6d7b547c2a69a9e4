import OsWorkbench.Gpt.ForwardRows
import OsWorkbench.Gpt.Replay

namespace OsWorkbench.Gpt

open Library CFloat Cell

variable {V : Type} [Cell V]

/-- The end-of-text token. -/
def eot : ℕ := 50256

/-- The arguments of the program, and `GPT2_EOT` behind them. -/
def fillTokens (tokens n : ℕ) (prompt : List ℕ) : (ℕ → V) → ℕ → V :=
  fill (fun i _ ↦ ofToken (prompt.getD i eot)) tokens n

def sampleStep (probs vocab tokens t : ℕ) (mem : ℕ → V) : ℕ → V :=
  Function.update mem (tokens + t)
    (ofToken (sampleMult (slice mem (probs + (t - 1) * vocab) vocab)))

/-- One turn of the loop in `main`. -/
def turnCommands (c : Config) (paramsMemory actsMemory tokens cache t : ℕ) : List (Command V) :=
  gpt2Forward c (c.mallocAndPointParameters paramsMemory) (c.mallocAndPointActivations 1 t actsMemory)
    tokens cache 1 t ++
  [.user (sampleStep (c.mallocAndPointActivations 1 t actsMemory .probs) c.vocabSize tokens t)]

/-- `main`; the allocator may place the activations of each turn anew. -/
def mainCommands (c : Config) (paramsMemory : ℕ) (actsMemory cache : ℕ → ℕ) (tokens n : ℕ)
    (prompt : List ℕ) : List (Command V) :=
  .user (fillTokens tokens n prompt) ::
    (List.range (n - prompt.length)).flatMap fun k ↦
      turnCommands c paramsMemory (actsMemory (prompt.length + k)) tokens (cache (prompt.length + k))
        (prompt.length + k)

structure Config.MainPlaced (c : Config) (paramsMemory : ℕ) (actsMemory cache : ℕ → ℕ) (tokens n : ℕ)
    (prompt : List ℕ) : Prop where
  nonempty : prompt ≠ []
  length_le : prompt.length ≤ n
  vocab_pos : 0 < c.vocabSize
  vocab_le : c.vocabSize ≤ 2147483648
  prompt_lt : ∀ x ∈ prompt, x < c.vocabSize
  placed : ∀ t, prompt.length ≤ t → t < n → c.Placed 1 t paramsMemory (actsMemory t) tokens (cache t)
  params_tokens : ∀ i ∈ c.paramsRegion paramsMemory, i ∉ tensor tokens n
  tokens_written : ∀ t, prompt.length ≤ t → t < n →
    Separated tokens n (c.writtenRegion 1 t (actsMemory t) (cache t))

omit [Cell V] in
theorem length_wte (c : Config) (params : Parameter → ℕ) (mem : ℕ → V) :
    (weightsAt c params mem).wte.length = c.vocabSize := by
  rw [weightsAt, List.length_map, List.length_range]

section Main

variable {c : Config} {paramsMemory : ℕ} {actsMemory cache : ℕ → ℕ} {tokens n : ℕ} {prompt : List ℕ}
  (h : c.MainPlaced paramsMemory actsMemory cache tokens n prompt) {mem m : ℕ → V}

include h

/-- A turn appends one token and leaves the parameters alone. -/
theorem turn_tokens {t : ℕ} (ht : prompt.length ≤ t) (htn : t < n) {ts : List ℕ}
    (hts : (slice m tokens t).map token = ts) (hlt : ∀ x ∈ ts, x < c.vocabSize) :
    (slice (runCommands dot (turnCommands c paramsMemory (actsMemory t) tokens (cache t) t) m) tokens
      (t + 1)).map token = ts ++ [sampleMult ((weightsAt c (c.mallocAndPointParameters paramsMemory)
        m).probs c.channels c.numHeads (ts.getD · 0) (t - 1))] ∧
    ∀ i ∈ c.paramsRegion paramsMemory,
      runCommands dot (turnCommands c paramsMemory (actsMemory t) tokens (cache t) t) m i = m i := by
  have hplaced := h.placed t ht htn
  have hpos : 0 < t := (List.length_pos_iff.mpr h.nonempty).trans_le ht
  have hget : ∀ s < t, ts.getD s 0 = token (m (tokens + s)) := by
    intro s hs
    rw [← hts, List.getD, List.getElem?_map, getElem?_slice hs]
    rfl
  have htok : ∀ j < 1 * t, token (m (tokens + j)) < c.vocabSize := by
    intro j hj
    apply hlt
    rw [← hts, List.mem_map]
    exact ⟨m (tokens + j), List.mem_map.mpr ⟨j, List.mem_range.mpr (by omega), rfl⟩, rfl⟩
  obtain ⟨hrows, hframe⟩ := gpt2Forward_rows hplaced htok
  have hframe : Agree (c.writtenRegion 1 t (actsMemory t) (cache t)) m _ := fun i hi ↦
    hframe i (fun hin ↦ hi (.inl hin)) fun hin ↦ hi (.inr hin)
  have hprobs := hrows 0 Nat.one_pos (t - 1) (by omega)
  rw [Nat.zero_mul, Nat.zero_mul, Nat.add_zero] at hprobs
  have hsample : sampleMult ((weightsAt c (c.mallocAndPointParameters paramsMemory) m).probs c.channels
      c.numHeads (tokensAt tokens t 0 m) (t - 1)) =
      sampleMult ((weightsAt c (c.mallocAndPointParameters paramsMemory) m).probs c.channels
        c.numHeads (ts.getD · 0) (t - 1)) := by
    congr 1
    apply Weights.probs_congr
    intro s hs
    rw [hget s (by omega), tokensAt, Nat.zero_mul, Nat.zero_add]
  have hvocab : ((weightsAt c (c.mallocAndPointParameters paramsMemory) m).probs c.channels c.numHeads
      (ts.getD · 0) (t - 1)).length = c.vocabSize := by
    rw [length_probs, length_wte]
  have hsampleLt := sampleMult_lt (List.ne_nil_of_length_pos (hvocab ▸ h.vocab_pos))
  rw [hvocab] at hsampleLt
  have hkeep : ∀ i, i ≠ tokens + t → i ∉ c.writtenRegion 1 t (actsMemory t) (cache t) →
      runCommands dot (turnCommands c paramsMemory (actsMemory t) tokens (cache t) t) m i = m i := by
    intro i hne hi
    rw [turnCommands, runCommands_append, ← hframe i hi]
    exact Function.update_of_ne hne ..
  refine ⟨?_, ?_⟩
  · have hold : slice (runCommands dot (turnCommands c paramsMemory (actsMemory t) tokens (cache t) t)
        m) tokens t = slice m tokens t := by
      apply slice_congr
      intro i hi
      have hlt := hi.2
      exact hkeep i (by omega) (h.tokens_written t ht htn i ⟨hi.1, by omega⟩)
    have hnew : runCommands dot (turnCommands c paramsMemory (actsMemory t) tokens (cache t) t) m
        (tokens + t) = ofToken (sampleMult ((weightsAt c (c.mallocAndPointParameters paramsMemory)
          m).probs c.channels c.numHeads (tokensAt tokens t 0 m) (t - 1))) := by
      rw [turnCommands, runCommands_append, ← hprobs]
      exact Function.update_self ..
    rw [slice_append, List.map_append, hold, hts]
    simp only [slice, List.range_one, List.map_cons, List.map_nil, Nat.add_zero]
    rw [hnew, hsample, token_ofToken _ (hsampleLt.trans_le h.vocab_le)]
  · intro i hi
    have hne : i ≠ tokens + t := fun he ↦ h.params_tokens i hi (mem_tensor.mpr ⟨by omega, by omega⟩)
    apply hkeep i hne
    rintro (hin | hin)
    · exact hplaced.params_cache i hi hin
    · exact hplaced.params_acts i hi hin

theorem turns_tokens (htokens : (slice m tokens prompt.length).map token = prompt) {k : ℕ}
    (hk : prompt.length + k ≤ n) :
    (slice (runCommands dot ((List.range k).flatMap fun k ↦ turnCommands c paramsMemory
        (actsMemory (prompt.length + k)) tokens (cache (prompt.length + k)) (prompt.length + k)) m)
        tokens (prompt.length + k)).map token =
      generate (weightsAt c (c.mallocAndPointParameters paramsMemory) m) c.channels c.numHeads prompt
        k ∧
    ∀ i ∈ c.paramsRegion paramsMemory,
      runCommands dot ((List.range k).flatMap fun k ↦ turnCommands c paramsMemory
        (actsMemory (prompt.length + k)) tokens (cache (prompt.length + k)) (prompt.length + k)) m i =
      m i := by
  induction k with
  | zero => exact ⟨htokens, fun _ _ ↦ rfl⟩
  | succ k ih =>
    obtain ⟨htokens', hparams⟩ := ih (by omega)
    have hweights := weightsAt_congr hparams
    have hlt := generate_lt (weightsAt c (c.mallocAndPointParameters paramsMemory) m) c.channels
      c.numHeads prompt h.vocab_pos (length_wte c _ m) h.prompt_lt k
    obtain ⟨hturn, hkeep⟩ := turn_tokens h (Nat.le_add_right _ k) (by omega) htokens' hlt
    rw [List.range_succ, List.flatMap_append, List.flatMap_singleton, runCommands_append]
    refine ⟨?_, ?_⟩
    · rw [← Nat.add_assoc, hturn, hweights, generate]
    · intro i hi
      rw [hkeep i hi, hparams i hi]

/-- `main` prints the continuation of the prompt, one token after the other. -/
theorem main_generates (mem : ℕ → V) :
    (slice (runCommands dot (mainCommands c paramsMemory actsMemory cache tokens n prompt) mem) tokens
      n).map token =
      generate (weightsAt c (c.mallocAndPointParameters paramsMemory) mem) c.channels c.numHeads prompt
        (n - prompt.length) := by
  have hinit : (slice (fillTokens tokens n prompt mem) tokens prompt.length).map token = prompt := by
    apply List.ext_getElem
    · simp
    · intro i hi hi'
      have hin : i < n := hi'.trans_le h.length_le
      have hlt := h.prompt_lt _ (List.getElem_mem hi')
      have hvocab := h.vocab_le
      have hget : prompt.getD i eot = prompt[i] := by simp [List.getD, hi']
      rw [List.getElem_map, getElem_slice, fillTokens, fill_self (fun _ _ _ _ ↦ rfl) hin,
        hget, token_ofToken _ (by omega)]
  have hweights : weightsAt c (c.mallocAndPointParameters paramsMemory) (fillTokens tokens n prompt mem) =
      weightsAt c (c.mallocAndPointParameters paramsMemory) mem := by
    apply weightsAt_congr
    intro i hi
    exact fill_of_notMem (h.params_tokens i hi)
  have hn : prompt.length + (n - prompt.length) = n := Nat.add_sub_cancel' h.length_le
  obtain ⟨htokens, -⟩ := turns_tokens h hinit hn.le
  rw [hweights, hn] at htokens
  exact htokens

theorem separate_of_main {a : MatmulArgs}
    (ha : .matmulForward a ∈ mainCommands (V := V) c paramsMemory actsMemory cache tokens n prompt) :
    a.Separate := by
  rw [mainCommands, List.mem_cons] at ha
  rcases ha with ha | ha
  · cases ha
  · obtain ⟨k, hk, ha⟩ := List.mem_flatMap.mp ha
    have hk := List.mem_range.mp hk
    rw [turnCommands, List.mem_append] at ha
    rcases ha with ha | ha
    · exact separate_of_forward (h.placed _ (Nat.le_add_right _ k) (by omega)) ha
    · simp at ha

end Main

section Sample

open Sample

abbrev sampleMain : List (Command ℤ) :=
  mainCommands sampleConfig 0 (fun _ ↦ 1000) (fun _ ↦ 600) 500 2 [1]

def mainStart : Monitor.State (Thread 1) (Shared 1 ℤ) (Place ℤ) where
  lk := none
  sleep _ := .awake
  place := (pool 1 dot sampleMain).start
  shared :=
    { buffer := ⟨fun _ ↦ sampleCall.calcArgs 0 0, 0, 0, 0⟩
      remaining := 0
      finished := false
      terminated := fun _ ↦ false
      mem := fun a ↦ a
      pushed := []
      popped := []
      computed := []
      entryMem := fun _ ↦ 0 }

/-- The worker runs when the producer sleeps. -/
def mainSchedule : List (Thread 1) :=
  [(13, 13), (14, 11), (15, 14), (14, 11), (15, 12), (9, 4), (1, 0)].flatMap fun r ↦
    List.replicate r.1 .producer ++ List.replicate r.2 (.worker 0)

theorem sample_main_placed :
    sampleConfig.MainPlaced 0 (fun _ ↦ 1000) (fun _ ↦ 600) 500 2 [1] := by
  have hparams : totalSize sampleConfig.paramSizes Parameter.all = 33 := by decide
  constructor
  · decide
  · decide
  · decide
  · decide
  · decide
  · intro t ht ht'
    exact sample_placed ht ht'.le
  · intro i hi
    simp only [Config.paramsRegion, mem_tensor, hparams] at hi ⊢
    omega
  · intro t ht ht' i hi
    have hacts := sample_total ht ht'.le
    simp only [Config.writtenRegion, Config.actsRegion, Set.mem_ofPred_eq, mem_tensor] at hi ⊢
    omega

end Sample

end OsWorkbench.Gpt
