import Mathlib.Data.List.Forall2
import Sluice.Proofs.Delivery

/-!
# Requests in a row

A source may fail, and work again. What a request has made until the source fails is lost: neither this
request delivers it, nor a later one. Nothing else is lost, and where nothing fails, nothing is.

* `Outcome` — what a request comes to.
* `Gapless`, `Gaps` — what has been delivered is the front of the content, unless something is lost.
* `Reader.Weathers` — what requests come to, one after the other, whether the source fails or not.
* `Reader.Due.weathers`, `Reader.Due.withstands` — over a truthful decoder, and over one that does not
  fail itself.
* `Reader.Due.delivers` — over a source that does not fail either.
-/

namespace Sluice

/-! ## Outcomes -/

/-- What a request comes to over a source that may fail: an answer, or a failure with which it loses
what it has made until then. -/
inductive Outcome where
  | answered (piece : List UInt8)
  | failed (failure : Failure) (lost : List UInt8)

namespace Outcome

/-- What the caller is told. -/
def answer : Outcome → Except Failure (List UInt8)
  | answered piece => .ok piece
  | failed failure _ => .error failure

/-- What the request has made of the stream. -/
def made : Outcome → List UInt8
  | answered piece => piece
  | failed _ lost => lost

/-- What of it reaches the caller. -/
def delivered : Outcome → List UInt8
  | answered piece => piece
  | failed _ _ => []

/-- What of it does not. -/
def lost : Outcome → List UInt8
  | answered _ => []
  | failed _ lost => lost

def hasFailed : Outcome → Bool
  | answered _ => false
  | failed _ _ => true

/-- Outcomes without a failure are answers. -/
theorem exists_pieces {outcomes : List Outcome} (h : outcomes.countP hasFailed = 0) :
    ∃ pieces : List (List UInt8), outcomes = pieces.map answered := by
  induction outcomes with
  | nil => exact ⟨[], rfl⟩
  | cons outcome outcomes ih =>
    rw [List.countP_cons, Nat.add_eq_zero_iff] at h
    obtain ⟨pieces, rfl⟩ := ih h.1
    cases outcome with
    | answered piece => exact ⟨piece :: pieces, rfl⟩
    | failed failure lost => exact absurd h.2 Nat.one_ne_zero

/-- No more is delivered than was asked for, and less than that is lost. A request that is content
with any output loses nothing. -/
def Fits : Outcome → Request → Prop
  | answered piece, request => piece.length ≤ request.size
  | failed _ lost, request => lost.length < request.size ∧ (request.isEager = true → lost = [])

/-- A request for one byte, or for any output, loses nothing. -/
theorem Fits.lost_eq_nil {outcome : Outcome} {request : Request} (h : outcome.Fits request)
    (hsmall : request.isEager = true ∨ request.size = 1) : outcome.lost = [] := by
  cases outcome with
  | answered piece => rfl
  | failed failure lost =>
    obtain ⟨hlength, heager⟩ := h
    rcases hsmall with hsmall | hsize
    · exact heager hsmall
    · rw [hsize] at hlength
      exact List.length_eq_zero_iff.1 (Nat.lt_one_iff.1 hlength)

theorem length_made (outcome : Outcome) :
    outcome.made.length = outcome.delivered.length + outcome.lost.length := by
  cases outcome <;> simp [made, delivered, lost]

theorem delivered_sublist (outcome : Outcome) : outcome.delivered.Sublist outcome.made := by
  cases outcome with
  | answered piece => exact List.Sublist.refl _
  | failed failure lost => exact List.nil_sublist _

/-- What outcomes have made has been delivered, or it has been lost. -/
theorem length_flatMap_made (outcomes : List Outcome) :
    (outcomes.flatMap made).length =
      (outcomes.flatMap delivered).length + (outcomes.flatMap lost).length := by
  induction outcomes with
  | nil => rfl
  | cons outcome outcomes ih =>
    simp only [List.flatMap_cons, List.length_append, ih, length_made]
    omega

theorem flatMap_delivered_sublist (outcomes : List Outcome) :
    (outcomes.flatMap delivered).Sublist (outcomes.flatMap made) := by
  induction outcomes with
  | nil => exact List.Sublist.refl _
  | cons outcome outcomes ih =>
    rw [List.flatMap_cons, List.flatMap_cons]
    exact outcome.delivered_sublist.append ih

/-- All that outcomes have made is delivered exactly if nothing is lost. -/
theorem flatMap_delivered_eq_iff (outcomes : List Outcome) :
    outcomes.flatMap delivered = outcomes.flatMap made ↔ outcomes.flatMap lost = [] := by
  have hlength := length_flatMap_made outcomes
  constructor
  · intro heq
    rw [heq] at hlength
    exact List.length_eq_zero_iff.1 (Nat.left_eq_add.1 hlength)
  · intro hnil
    rw [hnil] at hlength
    exact (flatMap_delivered_sublist outcomes).eq_of_length hlength.symm

end Outcome

open Outcome (answered failed)

/-- What has been delivered is the front of the content, and all of it once an answer is empty. -/
def Gapless (outcomes : List Outcome) (content : List UInt8) : Prop :=
  outcomes.flatMap Outcome.delivered <+: content ∧
    (answered [] ∈ outcomes → outcomes.flatMap Outcome.delivered = content)

/-- Where there is a gap, a request has lost something. -/
structure Gaps (content : List UInt8) (requests : List Request) (outcomes : List Outcome) : Prop where
  gapless : outcomes.flatMap Outcome.lost = [] → Gapless outcomes content
  /-- what has been lost is missing at the end -/
  missing : answered [] ∈ outcomes → Gapless outcomes content → outcomes.flatMap Outcome.lost = []
  /-- requests for one byte, or for any output, lose nothing -/
  small : (∀ request ∈ requests, request.isEager = true ∨ request.size = 1) →
    outcomes.flatMap Outcome.lost = []

namespace Reader

variable {σ : Type} [Codec σ] {Owes : σ → List UInt8 → List (List UInt8) → Prop} {r r₁ r' : Reader σ}
  {content later : List UInt8} {request : Request} {requests : List Request}
  {outcomes : List Outcome}

/-- What `requests` come to on a reader with the `content` in front of it. Put together, the outcomes
are the front of the content, in its order, and all of it once an answer is empty. -/
structure Weathers (r : Reader σ) (content : List UInt8) (requests : List Request)
    (outcomes : List Outcome) (r' : Reader σ) : Prop where
  served : r.serve requests = (outcomes.map Outcome.answer, r')
  fits : List.Forall₂ Outcome.Fits outcomes requests
  front : outcomes.flatMap Outcome.made <+: content
  whole : answered [] ∈ outcomes → outcomes.flatMap Outcome.made = content
  /-- a request fails only if the source does -/
  failures : outcomes.countP Outcome.hasFailed ≤ r.source.failures
  /-- what is lost is not counted -/
  delivered : r'.delivered = r.delivered + (outcomes.flatMap Outcome.delivered).length

namespace Weathers

theorem nil : Weathers r content [] [] r := ⟨rfl, .nil, List.nil_prefix, by simp, Nat.zero_le _, rfl⟩

/-- One more request in front. -/
theorem cons (outcome : Outcome) (hfits : outcome.Fits request)
    (hanswer : r.answer request = (outcome.answer, r₁))
    (hnil : outcome = answered [] → later = [])
    (hfailures : (if outcome.hasFailed then 1 else 0) + r₁.source.failures ≤ r.source.failures)
    (hdelivered : r₁.delivered = r.delivered + outcome.delivered.length)
    (h : Weathers r₁ later requests outcomes r') :
    Weathers r (outcome.made ++ later) (request :: requests) (outcome :: outcomes) r' where
  served := by
    rw [serve, hanswer]
    simp only [h.served, List.map_cons]
  fits := .cons hfits h.fits
  front := by
    rw [List.flatMap_cons, List.prefix_append_right_inj]
    exact h.front
  whole := by
    intro hmem
    rw [List.flatMap_cons]
    rcases List.mem_cons.1 hmem with heq | hmem
    · obtain rfl := hnil heq.symm
      rw [List.prefix_nil.1 h.front]
    · rw [h.whole hmem]
  failures := by
    have := h.failures
    rw [List.countP_cons]
    omega
  delivered := by
    rw [h.delivered, hdelivered, List.flatMap_cons, List.length_append, Nat.add_assoc]

/-- With more requests than bytes and failures, the end is reached. -/
theorem ends (h : Weathers r content requests outcomes r')
    (hmany : content.length + r.source.failures < requests.length) : answered [] ∈ outcomes := by
  -- an outcome that is no empty answer has made a byte, or is one of the failures
  have hcount : answered [] ∉ outcomes →
      outcomes.length ≤ (outcomes.flatMap Outcome.made).length +
        outcomes.countP Outcome.hasFailed := by
    clear h
    intro hmem
    induction outcomes with
    | nil => exact Nat.zero_le _
    | cons outcome outcomes ih =>
      obtain ⟨hne, hmem⟩ := not_or.1 (mt List.mem_cons.2 hmem)
      have := ih hmem
      rw [List.flatMap_cons, List.length_append, List.countP_cons, List.length_cons]
      cases outcome with
      | answered piece =>
        have hpiece : piece ≠ [] := fun hnil => hne (congrArg answered hnil.symm)
        have := List.length_pos_iff.2 hpiece
        simp only [Outcome.made]
        omega
      | failed failure lost =>
        simp only [Outcome.hasFailed, if_true]
        omega
  refine Classical.not_not.1 fun hmem => ?_
  have := hcount hmem
  have := h.fits.length_eq
  have := h.failures
  have := h.front.length_le
  omega

/-- Where every request is for one byte, or for any output, nothing is lost. -/
theorem lost_eq_nil (h : Weathers r content requests outcomes r')
    (hsmall : ∀ request ∈ requests, request.isEager = true ∨ request.size = 1) :
    outcomes.flatMap Outcome.lost = [] := by
  have hfits := h.fits
  clear h
  induction hfits with
  | nil => rfl
  | cons hfit hfits ih =>
    rw [List.flatMap_cons, hfit.lost_eq_nil (hsmall _ List.mem_cons_self),
      ih fun request hmem => hsmall request (List.mem_cons_of_mem _ hmem)]
    rfl

theorem gaps (h : Weathers r content requests outcomes r') : Gaps content requests outcomes where
  gapless := by
    intro hlost
    have heq := (Outcome.flatMap_delivered_eq_iff outcomes).2 hlost
    exact ⟨heq ▸ h.front, fun hend => heq.trans (h.whole hend)⟩
  missing := by
    intro hend hgapless
    have heq := (hgapless.2 hend).trans (h.whole hend).symm
    exact (Outcome.flatMap_delivered_eq_iff outcomes).1 heq
  small := h.lost_eq_nil

end Weathers

/-! ## Requests in a row -/

/-- The decoder has failed in the first of the requests that are left, if there is one. -/
inductive Stopped (Owes : σ → List UInt8 → List (List UInt8) → Prop) (r : Reader σ) :
    List Request → Prop where
  | served : Stopped Owes r []
  | refused {s : σ} {contents : List (List UInt8)} {failure : Failure} {r' : Reader σ}
      {request : Request} {requests : List Request} (running : r.Running s)
      (owes : Owes s r.ahead contents) (answer : r.answer request = (.error failure, r'))
      (refused : Refused r s r' failure) : Stopped Owes r (request :: requests)

/-- Requests on a reader over a truthful decoder, as far as the decoder does not fail. -/
theorem Due.weathers (hT : Truthful Owes) (h : Due Owes r content)
    (hpos : ∀ request ∈ requests, 0 < request.size) :
    ∃ served rest outcomes r', requests = served ++ rest ∧ Weathers r content served outcomes r' ∧
      Stopped Owes r' rest := by
  induction requests generalizing r content with
  | nil =>
    exact ⟨[], [], [], r, rfl, .nil, .served⟩
  | cons request requests ih =>
    have hsize := hpos request List.mem_cons_self
    have hpos' : ∀ q ∈ requests, 0 < q.size := fun q hq => hpos q (List.mem_cons_of_mem request hq)
    have hanswer := answer_eq_fill r hsize
    have key := fill_due hT h request.isEager hsize
    rcases hf : r.fill request.isEager request.size with ⟨answer, r₁⟩
    rw [hf] at key hanswer
    cases key with
    | @answered piece later _ due nil length delivered plan =>
      obtain ⟨served, rest, outcomes, r', rfl, hweathers, hstopped⟩ := ih due hpos'
      have hfailures := Source.failures_le_of_suffix plan
      refine ⟨request :: served, rest, answered piece :: outcomes, r', rfl, ?_, hstopped⟩
      refine hweathers.cons (answered piece) length hanswer ?_ ?_ delivered
      · rintro ⟨⟩
        exact nil rfl
      · simpa [Outcome.hasFailed] using hfailures
    | @lost lost later failure _ due length eager_lost delivered fails =>
      obtain ⟨served, rest, outcomes, r', rfl, hweathers, hstopped⟩ := ih due hpos'
      refine ⟨request :: served, rest, failed failure lost :: outcomes, r', rfl, ?_, hstopped⟩
      refine hweathers.cons (failed failure lost) ⟨length, eager_lost⟩ hanswer nofun ?_
        delivered
      have hfails : 1 + r₁.source.failures ≤ r.source.failures := Nat.one_add _ ▸ fails
      simpa [Outcome.hasFailed] using hfails
    | refused running owes refused =>
      exact ⟨[], request :: requests, [], r, rfl, .nil, .refused running owes hanswer refused⟩

/-- Whatever is asked for, the reader gets through its content. A request fails only if the source
does, and loses what it has made; with more requests than bytes and failures, the end is reached. -/
def Withstands (r : Reader σ) (content : List UInt8) : Prop :=
  ∀ requests : List Request, (∀ request ∈ requests, 0 < request.size) →
    ∃ outcomes r', Weathers r content requests outcomes r' ∧ Gaps content requests outcomes ∧
      (content.length + r.source.failures < requests.length → answered [] ∈ outcomes)

theorem withstands_of_weathers
    (h : ∀ requests : List Request, (∀ request ∈ requests, 0 < request.size) →
      ∃ outcomes r', Weathers r content requests outcomes r') : r.Withstands content := by
  intro requests hpos
  obtain ⟨outcomes, r', hweathers⟩ := h requests hpos
  exact ⟨outcomes, r', hweathers, hweathers.gaps, hweathers.ends⟩

/-- A reader over a decoder that does not fail. -/
theorem Due.withstands (hO : Honours Owes) (h : Due Owes r content) : r.Withstands content := by
  refine withstands_of_weathers fun requests hpos => ?_
  obtain ⟨served, rest, outcomes, r', rfl, hweathers, hstopped⟩ :=
    h.weathers hO.toPays.toTruthful hpos
  cases hstopped with
  | served =>
    rw [List.append_nil]
    exact ⟨outcomes, r', hweathers⟩
  | refused _ owes _ refused => exact absurd refused (not_refused hO owes)

/-- Over a source that does not fail, every request is answered. -/
theorem Withstands.delivers (h : r.Withstands content) (hfailures : r.source.failures = 0) :
    r.Delivers content := by
  intro requests hpos
  obtain ⟨outcomes, r', hweathers, -, hends⟩ := h requests hpos
  have hcount := hweathers.failures
  rw [hfailures, Nat.le_zero] at hcount
  obtain ⟨pieces, rfl⟩ := Outcome.exists_pieces hcount
  have hmem : answered [] ∈ pieces.map answered ↔ [] ∈ pieces := by simp
  have hmade : (pieces.map answered).flatMap Outcome.made = pieces.flatten := by
    rw [List.flatMap_map]
    exact List.flatMap_id'
  have hdelivered : (pieces.map answered).flatMap Outcome.delivered = pieces.flatten := by
    rw [List.flatMap_map]
    exact List.flatMap_id'
  refine ⟨pieces, r', ?_, hmade ▸ hweathers.front, ?_, ?_, hdelivered ▸ hweathers.delivered⟩
  · rw [hweathers.served, List.map_map]
    rfl
  · rw [← hmem, ← hmade]
    exact hweathers.whole
  · rw [← hmem]
    intro hmany
    rw [hfailures] at hends
    exact hends hmany

/-- Any number of requests is answered with the front of what is due. -/
theorem Due.delivers (hO : Honours Owes) (h : Due Owes r content) (hs : r.source.Steady) :
    r.Delivers content :=
  (h.withstands hO).delivers hs.failures_eq_zero

end Reader

end Sluice
