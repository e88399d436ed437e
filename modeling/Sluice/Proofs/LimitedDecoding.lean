import Sluice.Proofs.CandidDecoders
import Sluice.Proofs.OpeningFrames

/-!
# Decoding under a limit

With a limit, output is collected in other blocks, and the codec is stepped in another way. What comes
out is nevertheless decided by the prospect: by the content that is ahead, and by how it ends.

* `Judged` — the answers that someone may get who wants all of the content, but not more than a limit.
* `Gathering.decode_bounded` — however far decoding gets, it allocates no more than the limit.
* `Gathering.lastAnswer_judged`, `Gathering.decoded_judged` — the step at the limit, and the loop.
-/

namespace Sluice

/-! ## Answers under a limit -/

/-- What may be answered to someone who wants all of the content that is ahead, but no more than `cap`
bytes: the same as without a limit if it is not more than that; and that it is too much if it is
more. Of a frame that is cut off just where the limit is reached, it may be said that it would be
too much. -/
inductive Judged (p : Prospect) : Option Nat → Except Failure (List UInt8) → Prop where
  | same {cap : Option Nat} (within : ∀ m, cap = some m → p.content.length ≤ m) :
      Judged p cap p.outcome
  | excess {m : Nat}
      (exceeds : m < p.content.length ∨ p.content.length = m ∧ ∃ text, p.ending = .cut text) :
      Judged p (some m) (.error (.codec (excessText m)))

namespace Gathering

variable {σ : Type} [Codec σ] {Ahead : σ → List UInt8 → Prospect → Prop} {c c₁ : Gathering σ}
  {p : Prospect}

/-- What decoding comes to: the bytes collected, or a failure. -/
def decoded (limit : Nat) (c : Gathering σ) : Except Failure (List UInt8) :=
  (decode limit c).1.map fun () => (decode limit c).2.output

/-- A step writes to the active block only. -/
theorem blocks_step (c : Gathering σ) (directive : Directive) :
    ∃ bytes, (c.step directive).2.blocks =
      { c.blocks with active := c.blocks.active.put bytes } := ⟨_, rfl⟩

/-- However far decoding gets, it has allocated no more than the limit allows. -/
theorem decode_bounded (h : c.blocks.Bounded) (limit : Nat) :
    (c.decode limit).2.blocks.Bounded ∧ (c.decode limit).2.blocks.limit = c.blocks.limit := by
  have hstep : ∀ {c c₁ : Gathering σ} {directive : Directive} {result : Except Failure Nat},
      c.step directive = (result, c₁) → c.blocks.Bounded →
        c₁.blocks.Bounded ∧ c₁.blocks.limit = c.blocks.limit := by
    intro c c₁ directive result hstep h
    obtain ⟨bytes, hblocks⟩ := blocks_step c directive
    rw [hstep] at hblocks
    dsimp only at hblocks
    rw [hblocks]
    exact ⟨h.put bytes, rfl⟩
  fun_induction decode limit c with
  | case1 c => exact ⟨h, rfl⟩
  | case2 limit c failure c₁ h₁ => exact hstep h₁ h
  | case3 limit c c₁ h₁ => exact hstep h₁ h
  | case4 limit c left c₁ h₁ hroom ih =>
    obtain ⟨hbounded, hlimit⟩ := hstep h₁ h
    exact hlimit ▸ ih hbounded
  | case5 limit c left c₁ h₁ hfull hat c₂ h₂ =>
    obtain ⟨hbounded, hlimit⟩ := hstep h₁ h
    exact hlimit ▸ hstep h₂ hbounded
  | case6 limit c left c₁ h₁ hfull hat result c₂ hne h₂ =>
    obtain ⟨hbounded, hlimit⟩ := hstep h₁ h
    exact hlimit ▸ hstep h₂ hbounded
  | case7 limit c left c₁ h₁ hfull hbelow failure hgrow => exact hstep h₁ h
  | case8 limit c left c₁ h₁ hfull hbelow blocks hgrow ih =>
    obtain ⟨hbounded, hlimit⟩ := hstep h₁ h
    have hsame := BlockList.limit_grow hgrow
    rw [← hlimit, ← hsame]
    exact ih (hbounded.grow hgrow)

/-! ## The loop -/

/-- The last step: all blocks are full, and there will be no more. -/
def lastAnswer (c : Gathering σ) : Except Failure (List UInt8) :=
  match c.step (decodingDirective c.input) with
  | (.ok 0, c) => .ok c.output
  | (_, c) => .error (.codec (excessText c.blocks.allocated))

section Decoded

variable {left limit : Nat}

theorem decoded_of_error {failure : Failure}
    (h : c.step (decodingDirective c.input) = (.error failure, c₁)) :
    decoded (limit + 1) c = .error failure := by
  simp [decoded, decode, h, Except.map]

theorem decoded_of_zero (h : c.step (decodingDirective c.input) = (.ok 0, c₁)) :
    decoded (limit + 1) c = .ok c₁.output := by
  simp [decoded, decode, h, Except.map]

theorem decoded_of_room (h : c.step (decodingDirective c.input) = (.ok (left + 1), c₁))
    (hroom : c₁.blocks.isFull = false) : decoded (limit + 1) c = decoded limit c₁ := by
  simp [decoded, decode, h, hroom]

theorem decoded_of_atLimit (h : c.step (decodingDirective c.input) = (.ok (left + 1), c₁))
    (hfull : c₁.blocks.isFull = true) (hat : c₁.blocks.atLimit = true) :
    decoded (limit + 1) c = c₁.lastAnswer := by
  unfold decoded lastAnswer
  simp only [decode, h, hfull, hat]
  rcases c₁.step (decodingDirective c₁.input) with ⟨failure | _ | number, c₂⟩ <;> rfl

theorem decoded_of_grow {blocks : BlockList}
    (h : c.step (decodingDirective c.input) = (.ok (left + 1), c₁)) (hfull : c₁.blocks.isFull = true)
    (hbelow : c₁.blocks.atLimit = false) (hgrow : c₁.blocks.grow = .ok blocks) :
    decoded (limit + 1) c = decoded limit { c₁ with blocks } := by
  simp [decoded, decode, h, hfull, hbelow, hgrow]

end Decoded

omit [Codec σ] in
theorem output_eq (c : Gathering σ) : c.output = c.blocks.join.toList := by
  rw [output, BlockList.finish_eq_join]

omit [Codec σ] in
theorem output_start (codec : σ) (bytes : List UInt8) (cap : Option Nat) :
    (start codec bytes cap).output = [] := by
  rw [output_eq]
  rfl

/-- A step collects as much of what it makes as there is room for. -/
theorem output_step (c : Gathering σ) (directive : Directive) :
    (c.step directive).2.output = c.output ++
      (Codec.step c.codec c.input.unread c.blocks.active.spare directive).output.take
        c.blocks.active.spare := by
  rw [output_eq, output_eq]
  exact BlockList.toList_join_put c.blocks _

/-- A step that makes nothing and reports an end leaves it at what has been collected. -/
theorem decoded_of_idle {limit : Nat}
    (hresult : (c.step (decodingDirective c.input)).1 = .ok 0)
    (houtput : (Codec.step c.codec c.input.unread c.blocks.active.spare
      (decodingDirective c.input)).output = []) : decoded (limit + 1) c = .ok c.output := by
  have hsame := output_step c (decodingDirective c.input)
  rw [houtput, List.take_nil, List.append_nil] at hsame
  rw [decoded_of_zero (Prod.ext hresult rfl), hsame]

/-- The last step hands out what has been collected, or says that it is not all. -/
theorem lastAnswer_cases (hfull : c.blocks.active.spare = 0) :
    c.lastAnswer = .ok c.output ∨
      c.lastAnswer = .error (.codec (excessText c.blocks.allocated)) := by
  have houtput := output_step c (decodingDirective c.input)
  rw [hfull, List.take_zero, List.append_nil] at houtput
  rcases hstep : c.step (decodingDirective c.input) with ⟨result, c₁⟩
  obtain ⟨hallocated, -, -⟩ := blocks_of_step hstep
  rw [hstep] at houtput
  rw [lastAnswer, hstep]
  rcases result with failure | _ | number
  · exact .inr (by simp [hallocated])
  · exact .inl (congrArg _ houtput)
  · exact .inr (by simp [hallocated])

/-- Where there is no room from the start, decoding does not get beyond two steps. -/
theorem decoded_full {left : Nat} (hfull : c.blocks.active.spare = 0)
    (hat : c.blocks.atLimit = true) (hresult : (c.step (decodingDirective c.input)).1 = .ok left) :
    ∃ answer, (answer = .ok c.output ∨
        answer = .error (.codec (excessText c.blocks.allocated))) ∧
      ∀ limit, decoded (limit + 1) c = answer := by
  have hstep : c.step (decodingDirective c.input) = (.ok left, _) := Prod.ext hresult rfl
  have hsame := output_step c (decodingDirective c.input)
  rw [hfull, List.take_zero, List.append_nil] at hsame
  obtain ⟨hallocated, hlimit, hspare⟩ := blocks_of_step hstep
  cases left with
  | zero => exact ⟨_, .inl rfl, fun limit => by rw [decoded_of_zero hstep, hsame]⟩
  | succ left =>
    have hfull₁ : (c.step (decodingDirective c.input)).2.blocks.active.spare = 0 :=
      Nat.le_zero.1 (hfull ▸ hspare)
    have hat₁ : (c.step (decodingDirective c.input)).2.blocks.atLimit = true := by
      rwa [BlockList.atLimit, hallocated, hlimit]
    have hcases := lastAnswer_cases hfull₁
    rw [hsame, hallocated] at hcases
    refine ⟨_, hcases, fun limit => decoded_of_atLimit hstep ?_ hat₁⟩
    rw [BlockList.isFull, Window.isFull, hfull₁, beq_self_eq_true]

/-- What a step has done that goes by what is ahead: the frame has ended, or the codec has failed,
with room for everything before that, or the rest of it is still ahead. -/
inductive Met (Ahead : σ → List UInt8 → Prospect → Prop) (p : Prospect) (c : Gathering σ) :
    Except Failure Nat × Gathering σ → Prop where
  | ends {c₁ : Gathering σ} (whole : p.behind c.blocks.join.toList = ⟨c₁.output, .complete⟩)
      (fits : p.content.length ≤ c.blocks.active.spare) : Met Ahead p c (.ok 0, c₁)
  | fails {failure : Failure} {c₁ : Gathering σ} (outcome : p.outcome = .error failure)
      (fits : p.content.length ≤ c.blocks.active.spare) : Met Ahead p c (.error failure, c₁)
  | continues {left : Nat} {c₁ : Gathering σ} {later : Prospect}
      (ahead : Ahead c₁.codec c₁.input.unread later)
      (whole : p.behind c.blocks.join.toList = later.behind c₁.blocks.join.toList)
      (shrinks : 0 < c.blocks.active.spare → c₁.input.unread.length + later.content.length <
        c.input.unread.length + p.content.length)
      (unfinished : p ≠ ⟨[], .complete⟩) (right : ∀ text, later ≠ ⟨[], .wrong text⟩) :
      Met Ahead p c (.ok (left + 1), c₁)

theorem step_met (hA : Foretells Ahead) (h : Ahead c.codec c.input.unread p) :
    Met Ahead p c (c.step (decodingDirective c.input)) := by
  generalize hd : decodingDirective c.input = directive
  have hasked : Asked directive c.input.unread := hd ▸ directive_cases c.input
  have hpair : c.step directive =
      ((Codec.step c.codec c.input.unread c.blocks.active.spare directive).result,
        (c.step directive).2) := rfl
  have houtput := output_step c directive
  cases hA.step h hasked with
  | ends result all fits =>
    rw [List.take_of_length_le fits] at houtput
    rw [hpair, result]
    refine .ends ?_ (all ▸ fits)
    rw [houtput, output_eq, Prospect.behind, congrArg Prospect.content all,
      congrArg Prospect.ending all]
  | fails result outcome fits =>
    rw [hpair, result]
    exact .fails outcome fits
  | continues result ahead fits state shrinks unfinished right =>
    rw [List.take_of_length_le fits, output_eq, output_eq] at houtput
    rw [hpair, result]
    refine .continues state ?_ shrinks unfinished right
    rw [houtput, congrArg (Prospect.behind _) ahead, Prospect.behind_behind]

/-- When the limit has been reached, the last step answers rightly, unless the frame is cut off just
there. -/
theorem lastAnswer_judged (hA : Foretells Ahead) (h : Ahead c.codec c.input.unread p)
    (hright : ∀ text, p ≠ ⟨[], .wrong text⟩) (hpacked : c.blocks.Packed)
    (hfull : c.blocks.active.spare = 0) (hat : c.blocks.limit = some c.blocks.allocated) :
    Judged (p.behind c.blocks.join.toList) c.blocks.limit c.lastAnswer := by
  have hsize : c.blocks.join.toList.length = c.blocks.allocated := by
    rw [hpacked, hfull, Nat.add_zero, Array.length_toList]
  have hlength : (p.behind c.blocks.join.toList).content.length =
      c.blocks.allocated + p.content.length := by
    rw [Prospect.content_behind, List.length_append, hsize]
  -- if nothing is ahead, and the frame does not end, it is cut off
  have hexcess : p ≠ ⟨[], .complete⟩ → Judged (p.behind c.blocks.join.toList) c.blocks.limit
      (.error (.codec (excessText c.blocks.allocated))) := by
    intro hunfinished
    rw [hat]
    refine .excess ?_
    rw [hlength]
    obtain ⟨content, ending⟩ := p
    rcases content with _ | ⟨byte, content⟩
    · refine .inr ⟨rfl, ?_⟩
      cases ending with
      | complete => exact absurd rfl hunfinished
      | wrong text => exact absurd rfl (hright text)
      | cut text => exact ⟨text, rfl⟩
    · exact .inl (by simp)
  have hmet := step_met hA h
  rcases hlast : c.step (decodingDirective c.input) with ⟨result, c₁⟩
  obtain ⟨hallocated, -, -⟩ := blocks_of_step hlast
  rw [hlast] at hmet
  cases hmet with
  | ends whole fits =>
    have hsame : c.lastAnswer = (p.behind c.blocks.join.toList).outcome := by
      rw [whole, lastAnswer, hlast]
      rfl
    rw [hsame]
    refine .same fun m hm => ?_
    rw [hat, Option.some.injEq] at hm
    omega
  | fails outcome fits =>
    have hlast' : c.lastAnswer = .error (.codec (excessText c.blocks.allocated)) := by
      rw [lastAnswer, hlast]
      simp [hallocated]
    rw [hlast']
    refine hexcess ?_
    rintro rfl
    cases outcome
  | continues ahead whole shrinks unfinished right =>
    have hlast' : c.lastAnswer = .error (.codec (excessText c.blocks.allocated)) := by
      rw [lastAnswer, hlast]
      simp [hallocated]
    rw [hlast']
    exact hexcess unfinished

/-- Decoding answers rightly, and with the same answer however many steps are allowed from some number
on. -/
theorem decoded_judged (hA : Foretells Ahead) (h : Ahead c.codec c.input.unread p)
    (hroomy : c.blocks.Roomy) (hpacked : c.blocks.Packed)
    (hmemory : c.blocks.join.size + p.content.length + largestBlock ≤ allocationLimit) :
    ∃ answer, Judged (p.behind c.blocks.join.toList) c.blocks.limit answer ∧
      ∀ limit, c.input.unread.length + p.content.length ≤ limit →
        decoded (limit + 1) c = answer := by
  -- on what is left to be taken and to be collected
  induction hn : c.input.unread.length + p.content.length using Nat.strongRecOn
    generalizing c p with
  | _ n ih =>
    have hwithin : ∀ m, c.blocks.limit = some m → p.content.length ≤ c.blocks.active.spare →
        (p.behind c.blocks.join.toList).content.length ≤ m := by
      intro m hm hfits
      have hle := hroomy.within m hm
      rw [hpacked] at hle
      rw [Prospect.content_behind, List.length_append, Array.length_toList]
      omega
    have hmet := step_met hA h
    rcases hstep : c.step (decodingDirective c.input) with ⟨result, c₁⟩
    obtain ⟨hallocated, hlimit, hspare⟩ := blocks_of_step hstep
    rw [hstep] at hmet
    cases hmet with
    | ends whole fits =>
      refine ⟨_, .same fun m hm => hwithin m hm fits, fun limit _ => ?_⟩
      rw [decoded_of_zero hstep, whole]
      rfl
    | fails outcome fits =>
      refine ⟨_, .same fun m hm => hwithin m hm fits, fun limit _ => ?_⟩
      rw [decoded_of_error hstep, Prospect.outcome_behind_of_error outcome]
    | @continues left _ later ahead whole shrinks unfinished right =>
      have hwithin₁ : ∀ m, c₁.blocks.limit = some m → c₁.blocks.allocated ≤ m := by
        rw [hallocated, hlimit]
        exact hroomy.within
      have hpacked₁ : c₁.blocks.Packed := by
        obtain ⟨bytes, hblocks⟩ := blocks_step c (decodingDirective c.input)
        rw [hstep] at hblocks
        dsimp only at hblocks
        exact hblocks ▸ hpacked.put bytes
      have hmemory₁ : c₁.blocks.join.size + later.content.length + largestBlock ≤
          allocationLimit := by
        have hlength := congrArg (fun p => p.content.length) whole
        simp only [Prospect.content_behind, List.length_append, Array.length_toList] at hlength
        omega
      -- where decoding goes on with some room in the blocks, there was room for this step
      have hgoes : ∀ blocks : BlockList, blocks.Roomy → blocks.Packed →
          blocks.join = c₁.blocks.join → blocks.limit = c₁.blocks.limit →
          0 < c.blocks.active.spare →
          (∀ limit, decoded (limit + 1) c = decoded limit { c₁ with blocks }) →
            ∃ answer, Judged (p.behind c.blocks.join.toList) c.blocks.limit answer ∧
              ∀ limit, n ≤ limit → decoded (limit + 1) c = answer := by
        intro blocks hroomy' hpacked' hjoin hlimit' hroom hdecoded
        have hlt := hn ▸ shrinks hroom
        obtain ⟨answer, hjudged, hanswer⟩ := ih _ hlt (c := { c₁ with blocks }) ahead hroomy'
          hpacked' (by rw [hjoin]; exact hmemory₁) rfl
        rw [hjoin, ← whole, hlimit', hlimit] at hjudged
        refine ⟨answer, hjudged, fun limit hle => ?_⟩
        obtain ⟨limit, rfl⟩ := Nat.exists_eq_succ_of_ne_zero (show limit ≠ 0 by omega)
        rw [hdecoded]
        exact hanswer limit (Nat.le_of_lt_succ (Nat.lt_of_lt_of_le hlt hle))
      cases hfull : c₁.blocks.isFull with
      | false =>
        have hroom : 0 < c₁.blocks.active.spare := by
          simp only [BlockList.isFull, Window.isFull, beq_eq_false_iff_ne] at hfull
          exact Nat.pos_of_ne_zero hfull
        exact hgoes c₁.blocks ⟨hwithin₁, .inl hroom⟩ hpacked₁ rfl rfl
          (Nat.lt_of_lt_of_le hroom hspare) fun limit => decoded_of_room hstep hfull
      | true =>
        have hspare₁ : c₁.blocks.active.spare = 0 := by
          simpa [BlockList.isFull, Window.isFull] using hfull
        cases hat : c₁.blocks.atLimit with
        | true =>
          have hat' : c₁.blocks.limit = some c₁.blocks.allocated := by
            simpa [BlockList.atLimit] using hat
          have hjudged := lastAnswer_judged hA ahead right hpacked₁ hspare₁ hat'
          rw [← whole, hlimit] at hjudged
          exact ⟨_, hjudged, fun limit _ => decoded_of_atLimit hstep hfull hat⟩
        | false =>
          have hroom : 0 < c.blocks.active.spare := by
            refine hroomy.room.resolve_right fun h => ?_
            rw [BlockList.atLimit, ← hallocated, ← hlimit] at h
            exact Bool.noConfusion (hat.symm.trans h)
          obtain ⟨blocks, hgrow, hpacked', -, hjoin, hlimit'⟩ :=
            hpacked₁.grow_ok hfull (BlockList.nextSize_pos hwithin₁ hat) (by omega)
          exact hgoes blocks (BlockList.roomy_grow hwithin₁ hat hgrow) hpacked' hjoin hlimit' hroom
            fun limit => decoded_of_grow hstep hfull hat hgrow

end Gathering

end Sluice
