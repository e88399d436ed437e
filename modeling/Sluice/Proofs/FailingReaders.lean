import Sluice.Proofs.ReaderBooks
import Sluice.Transfer

/-!
# Readers that complain

A decoder may have to complain about the end of its input. What it has handed out until then is
delivered, and nothing is taken for the end of the stream.

* `Complains` — a decoder that pays out what it owes, and then complains.
* `Reader.Failing`, `Reader.FillFailing`, `Reader.fill_failing` — a reader over such a decoder, and
  one request.
* `ReaderCall.Asks`, `Reader.Admits` — calls that are not refused.
* `Reader.call_failing`, `Reader.callAll_failing` — one call, and any number of them.
* `Reader.Exposes` — whatever is asked for, the reader ends in a failure.
* `Pieces.Fails` — and so does an iterator.
-/

namespace Sluice

open Reader (FeedTurn DrainTurn)

variable {σ : Type} [Codec σ]

/-- A decoder that pays out what it owes as long as there is input, and then complains about the end
of it. -/
structure Complains (Owes : σ → List UInt8 → List (List UInt8) → Prop) : Prop extends
    Pays Owes where
  /-- there is always a frame that has not ended -/
  unended {s : σ} {x : List UInt8} {contents : List (List UInt8)} : Owes s x contents → contents ≠ []
  /-- without input, it does not end either -/
  hangs {s s' : σ} {t : Turn} {contents : List (List UInt8)} :
    Owes s [] contents → DrainTurn t → t.Leads s s' → t.left ≠ 0
  /-- and after a complaint, nothing is left to be handed out -/
  breaks {s : σ} {contents : List (List UInt8)} {room : Nat} {failure : Failure} :
    Owes s [] contents → 0 < room → (Codec.step s [] room .finish).result = .error failure →
      Owes (Codec.step s [] room .finish).state [] [[]]

namespace Reader

variable {Owes : σ → List UInt8 → List (List UInt8) → Prop} {r r' : Reader σ} {s s' : σ}
  {contents : List (List UInt8)} {bytes : List UInt8}

/-! ## Requests -/

/-- `bytes` is all that the reader can still deliver before it fails. One that stops at the end of a
frame is inside its last one. -/
inductive Failing (Owes : σ → List UInt8 → List (List UInt8) → Prop) (r : Reader σ) :
    List UInt8 → Prop where
  | intro {s : σ} {contents : List (List UInt8)} (running : r.Running s) (steady : r.source.Steady)
      (decompressing : r.direction = .decompressing) (owes : Owes s r.ahead contents)
      (single : r.stopsAtFrameEnd = true → contents.tail = []) :
      Failing Owes r (expected r.stopsAtFrameEnd contents)

/-- A request that succeeds delivers some bytes, and the front of what is left. -/
theorem Filled.failing (hC : Complains Owes) {fed drained : List Turn} {piece : List UInt8}
    (h : Filled r s fed drained s' piece r') (hr : r.Running s) (hsteady : r.source.Steady)
    (hdirection : r.direction = .decompressing) (howes : Owes s r.ahead contents)
    (hsingle : r.stopsAtFrameEnd = true → contents.tail = []) :
    piece ≠ [] ∧ ∃ later, expected r.stopsAtFrameEnd contents = piece ++ later ∧
      Failing Owes r' later := by
  have hgoes : ∀ {contents' : List (List UInt8)}, r'.outputDone = false → Owes s' r'.ahead contents' →
      expected r.stopsAtFrameEnd contents = piece ++ expected r.stopsAtFrameEnd contents' →
      (r.stopsAtFrameEnd = true → contents'.tail = contents.tail) →
        ∃ later, expected r.stopsAtFrameEnd contents = piece ++ later ∧ Failing Owes r' later := by
    intro contents' hout howes' heq htail
    refine ⟨expected r'.stopsAtFrameEnd contents', h.stops.symm ▸ heq,
      .intro (h.running hr hout) (hsteady.of_suffix h.plan) ?_ howes' fun hstop => ?_⟩
    · rw [h.same]
      exact hdirection
    · rw [h.stops] at hstop
      exact (htail hstop).trans (hsingle hstop)
  have hcourse := h.course
  have hmade := h.made
  cases h.ending with
  | @frame before last split last_left before_left stops drained_nil done =>
    -- the frame that has not ended would have ended
    subst split drained_nil
    rw [List.append_nil] at hcourse
    obtain ⟨s₁, later, hbefore, hlast, -⟩ := hcourse.concat_inv
    obtain ⟨contents₁, howes₁, -, htail⟩ := hC.feed true hbefore
      (fun t ht => h.feedTurn t (List.mem_append_left _ ht)) (fun _ => before_left) howes
    obtain ⟨missing, others, rfl, hzero, -⟩ :=
      hC.proceeds howes₁ (h.feedTurn last (by simp)) hlast
    obtain ⟨-, howes₂⟩ := hzero last_left
    exact absurd ((htail rfl).trans (hsingle stops)) (hC.unended howes₂)
  | enough left drained_nil got goes_on =>
    subst drained_nil
    rw [List.append_nil] at hcourse hmade
    obtain ⟨contents', howes', heq, htail⟩ := hC.feed _ hcourse h.feedTurn left howes
    rw [← hmade] at heq
    exact ⟨got, hgoes goes_on howes' heq htail⟩
  | @finished before last left ahead split before_left last_left done =>
    -- without input, every turn makes something and asks for another one
    subst split
    obtain ⟨s₁, y, hfed, hdrained⟩ := hcourse.append_inv
    obtain rfl := ahead_nil_of_drain hdrained h.drainTurn
    rw [ahead] at hfed hdrained
    obtain ⟨contents₁, howes₁, -⟩ := hC.feed _ hfed h.feedTurn left howes
    obtain ⟨s₂, later, hbefore, hlast, -⟩ := hdrained.concat_inv
    obtain ⟨contents₂, howes₂, -⟩ := hC.drain false hbefore
      (fun t ht => ⟨h.drainTurn t (List.mem_append_left _ ht), (before_left t ht).1⟩) howes₁
    have hturn := h.drainTurn last (by simp)
    have hleft := hC.hangs howes₂ hturn hlast
    obtain ⟨missing, -, -, -, hmore⟩ := hC.finishes howes₂ hturn hlast
    rcases last_left with hzero | hnil
    · exact absurd hzero hleft
    · exact absurd hnil (hmore hleft).1
  | full left ahead drained_left got goes_on =>
    obtain ⟨s₁, y, hfed, hdrained⟩ := hcourse.append_inv
    obtain rfl := ahead_nil_of_drain hdrained h.drainTurn
    rw [ahead] at hfed hdrained
    obtain ⟨contents₁, howes₁, heq₁, htail₁⟩ := hC.feed _ hfed h.feedTurn left howes
    obtain ⟨contents₂, howes₂, heq₂, htail₂⟩ := hC.drain r.stopsAtFrameEnd hdrained
      (fun t ht => ⟨h.drainTurn t ht, (drained_left t ht).1⟩) howes₁
    refine ⟨got, hgoes goes_on (ahead ▸ howes₂) ?_ fun hstop => (htail₂ hstop).trans (htail₁ hstop)⟩
    rw [heq₁, heq₂, hmade, madeBy_append, List.append_assoc]
  | @stuck before last split taken made goes_on =>
    subst split
    obtain ⟨s₁, y, hfed, -⟩ := hcourse.append_inv
    obtain ⟨s₂, later, hbefore, hlast, -⟩ := hfed.concat_inv
    obtain ⟨contents₁, howes₁, -⟩ := hC.feed false hbefore
      (fun t ht => h.feedTurn t (List.mem_append_left _ ht)) (by simp) howes
    rcases hC.advances howes₁ (h.feedTurn last (by simp)) hlast with htaken | hmade
    · exact absurd taken htaken
    · exact absurd made hmade

/-- After a request that fails, nothing can be delivered any more. -/
theorem FillFailed.failing (hC : Complains Owes) {eager : Bool} {size : Nat} {failure : Failure}
    (h : FillFailed eager size r s r' failure) (hsteady : r.source.Steady)
    (hdirection : r.direction = .decompressing) (howes : Owes s r.ahead contents) :
    Failing Owes r' [] := by
  cases h.cause with
  | source cut =>
    have hfails := cut.fails
    rw [hsteady.failures_eq_zero] at hfails
    exact absurd hfails (Nat.not_lt_zero _)
  | codec refused =>
    obtain ⟨s', contents', room, howes', hroom, hresult, hahead, hrunning⟩ :=
      refused.at_end hC.toPays howes
    have hnothing : expected r'.stopsAtFrameEnd [[]] = [] := by
      cases r'.stopsAtFrameEnd <;> rfl
    have hdirection' : r'.direction = .decompressing := by
      rw [h.same]
      exact hdirection
    have hspent : Owes (Codec.step s' [] room .finish).state r'.ahead [[]] := by
      rw [hahead]
      exact hC.breaks howes' hroom hresult
    have hfailing := Failing.intro hrunning (hsteady.of_suffix h.plan) hdirection' hspent fun _ => rfl
    rwa [hnothing] at hfailing

/-- What a request comes to on a reader that can still deliver some bytes. -/
inductive FillFailing (Owes : σ → List UInt8 → List (List UInt8) → Prop) (size : Nat) (r : Reader σ) :
    List UInt8 → Except Failure (List UInt8) → Reader σ → Prop where
  /-- it delivers some of them, the front -/
  | answered {piece later : List UInt8} {r' : Reader σ} (nonempty : piece ≠ [])
      (length : piece.length ≤ size) (failing : Failing Owes r' later)
      (delivered : r'.delivered = r.delivered + piece.length) :
      FillFailing Owes size r (piece ++ later) (.ok piece) r'
  /-- or it fails, once and for all -/
  | failed {bytes : List UInt8} {failure : Failure} {r' : Reader σ} (failing : Failing Owes r' []) :
      FillFailing Owes size r bytes (.error failure) r'

theorem fill_failing (hC : Complains Owes) (h : Failing Owes r bytes) (eager : Bool) {size : Nat}
    (hsize : 0 < size) :
    FillFailing Owes size r bytes (r.fill eager size).1 (r.fill eager size).2 := by
  cases h with
  | intro hr steady decompressing owes single =>
    rcases hf : r.fill eager size with ⟨failure | piece, r'⟩
    · exact .failed ((fill_error hf hr hsize).failing hC steady decompressing owes)
    · obtain ⟨fed, drained, s', hfilled⟩ := fill_ok hf hr hsize
      obtain ⟨hne, later, heq, hfailing⟩ :=
        hfilled.failing hC hr steady decompressing owes single
      rw [heq]
      exact .answered hne (hr.length_fill_le hsize hf) hfailing hfilled.delivered

/-- A request on a reader with nothing left fails. -/
theorem fill_spent (hC : Complains Owes) (h : Failing Owes r []) (eager : Bool) {size : Nat}
    (hsize : 0 < size) : ∃ failure, (r.fill eager size).1 = .error failure := by
  have key := fill_failing hC h eager hsize
  generalize hbytes : ([] : List UInt8) = bytes at key
  rcases hf : r.fill eager size with ⟨answer, r'⟩
  rw [hf] at key
  cases key with
  | answered nonempty _ _ _ => exact absurd (List.append_eq_nil_iff.1 hbytes.symm).1 nonempty
  | failed => exact ⟨_, rfl⟩

/-! ## Calls -/

/-- A seek goes forward. -/
theorem SeekFrom.le_of_target {goal : SeekFrom} {current target : Nat}
    (h : goal.target current = .ok target) : current ≤ target := by
  have hforward : ∀ {offset : Int}, SeekFrom.target.forward current offset = .ok target →
      current ≤ target := by
    intro offset hto
    rw [SeekFrom.target.forward] at hto
    split at hto
    · next hle =>
      obtain rfl : offset.toNat = target := Except.ok.inj hto
      omega
    · cases hto
  cases goal with
  | start offset => exact hforward h
  | current delta => exact hforward h
  | fromEnd delta => cases h

/-- Reading and discarding gets to the target, or fails once and for all. -/
theorem discard_failing (hC : Complains Owes) (h : Failing Owes r bytes) (distance : Nat) :
    (∃ piece later r', r.discard distance = (.ok (), r') ∧ piece.length = distance ∧
      bytes = piece ++ later ∧ Failing Owes r' later ∧
      r'.delivered = r.delivered + piece.length) ∨
    ∃ failure r', r.discard distance = (.error failure, r') ∧ Failing Owes r' [] := by
  have hread : ∀ {distance bytes answer} {r r₁ : Reader σ}, Failing Owes r bytes → distance ≠ 0 →
      r.readInto (min distance decompressionOutputSize) = (answer, r₁) →
        FillFailing Owes (min distance decompressionOutputSize) r bytes answer r₁ := by
    intro distance bytes answer r r₁ h hdistance hread
    have hsize : 0 < min distance decompressionOutputSize :=
      Nat.lt_min.2 ⟨Nat.pos_of_ne_zero hdistance, by decide⟩
    have key := fill_failing hC h false hsize
    rwa [show r.fill false _ = _ from hread] at key
  fun_induction discard r distance generalizing bytes
  case case1 r => exact .inl ⟨[], bytes, r, rfl, rfl, rfl, h, rfl⟩
  case case2 r distance hdistance failure r₁ hanswer =>
    cases hread h hdistance hanswer with
    | failed failing => exact .inr ⟨failure, r₁, rfl, failing⟩
  case case3 r distance hdistance r₁ hanswer =>
    cases hread h hdistance hanswer with
    | answered nonempty _ _ _ => exact absurd rfl nonempty
  case case4 r distance hdistance byte rest r₁ hanswer ih =>
    cases hread h hdistance hanswer with
    | @answered _ later _ _ length failing delivered =>
      refine (ih failing).imp_left ?_
      rintro ⟨piece, later', r', hdiscard, hlength, rfl, hfailing, hcount⟩
      refine ⟨(byte :: rest) ++ piece, later', r', hdiscard, ?_, (List.append_assoc ..).symm,
        hfailing, ?_⟩
      · simp only [List.length_append, List.length_cons] at length ⊢
        omega
      · rw [hcount, delivered, List.length_append, Nat.add_assoc]

/-- Reading everything fails; if it is given enough steps, once and for all. -/
theorem readAll_failing (hC : Complains Owes) (h : Failing Owes r bytes) (limit : Nat)
    (acc : Array UInt8) :
    ∃ failure r', r.readAll limit acc = (.error failure, r') ∧
      (bytes.length < limit → Failing Owes r' []) := by
  induction limit generalizing r bytes acc with
  | zero => exact ⟨.stepLimit, r, rfl, fun hlt => absurd hlt (Nat.not_lt_zero _)⟩
  | succ limit ih =>
    have hsize : 0 < decompressionOutputSize := by decide
    have key := fill_failing hC h false hsize
    rcases hf : r.fill false decompressionOutputSize with ⟨answer, r₁⟩
    rw [hf] at key
    rw [readAll, show r.readInto decompressionOutputSize = _ from hf]
    cases key with
    | @answered piece later _ nonempty _ failing _ =>
      obtain ⟨byte, rest, rfl⟩ := List.exists_cons_of_ne_nil nonempty
      obtain ⟨failure, r', hall, hspoiled⟩ := ih failing (acc ++ byte :: rest)
      refine ⟨failure, r', hall, fun hlt => hspoiled ?_⟩
      simp only [List.length_append, List.length_cons] at hlt
      omega
    | failed failing => exact ⟨_, r₁, rfl, fun _ => failing⟩

/-- A seek gets to its target, or fails once and for all. -/
theorem seek_failing (hC : Complains Owes) (h : Failing Owes r bytes) {goal : SeekFrom}
    {target : Nat} (htarget : goal.target r.delivered = .ok target) :
    (∃ piece later r', r.seek goal = (.ok target, r') ∧ bytes = piece ++ later ∧
      Failing Owes r' later ∧ r'.delivered = r.delivered + piece.length ∧ r'.delivered = target) ∨
    ∃ failure r', r.seek goal = (.error failure, r') ∧ Failing Owes r' [] := by
  have hopen : r.phase ≠ .closed ∧ r.direction = .decompressing := by
    cases h with
    | intro running _ decompressing _ _ => exact ⟨running.phase, decompressing⟩
  rw [seek, hopen.2]
  simp only [if_neg hopen.1, htarget]
  rcases discard_failing hC h (target - r.delivered) with
    ⟨piece, later, r', hok, hlength, rfl, hfailing, hcount⟩ | ⟨failure, r', herror, hfailing⟩
  · have hreached : r'.delivered = target := by
      have := SeekFrom.le_of_target htarget
      omega
    rw [hok]
    have hposition : (.ok r'.delivered, r') = ((.ok target, r') : Except Failure Nat × Reader σ) :=
      Prod.ext (congrArg Except.ok hreached) rfl
    exact .inl ⟨piece, later, r', hposition, rfl, hfailing, hcount, hreached⟩
  · rw [herror]
    exact .inr ⟨failure, r', rfl, hfailing⟩

end Reader

namespace ReaderCall

/-- The call is not refused: a `read` asks for some bytes, reading everything is given enough steps,
and a seek goes forward from the position. -/
def Asks (total position : Nat) : ReaderCall → Prop
  | .request asked => asked ≠ .read 0
  | .readAll limit => total < limit
  | .seek goal => ∃ target, goal.target position = .ok target

/-- Whether the call asks for bytes. -/
def wantsBytes : ReaderCall → Bool
  | .request asked => 0 < asked.size
  | .readAll _ => true
  | .seek _ => false

end ReaderCall

namespace Reader

variable {Owes : σ → List UInt8 → List (List UInt8) → Prop} {r : Reader σ} {bytes : List UInt8}
  {total : Nat}

/-- None of the calls is refused, where the reader is then. -/
def Admits (total : Nat) (r : Reader σ) : List ReaderCall → Prop
  | [] => True
  | call :: calls => call.Asks total r.delivered ∧ (r.call call).2.Admits total calls

/-- A request for no bytes that is not refused is answered with none. -/
theorem Failing.answer_nothing (h : Failing Owes r bytes) {request : Request}
    (hzero : request.size = 0) (hasks : request ≠ .read 0) : r.answer request = (.ok [], r) := by
  have hopen : r.phase ≠ .closed := by
    cases h with
    | intro running _ _ _ _ => exact running.phase
  have hfill : ∀ eager, r.fill eager 0 = (.ok [], r) := by
    intro eager
    rw [fill, if_neg hopen, if_pos (.inr rfl)]
  cases request with
  | read size =>
    obtain rfl : size = 0 := hzero
    exact absurd rfl hasks
  | readInto size =>
    obtain rfl : size = 0 := hzero
    exact hfill false
  | read1 size =>
    obtain rfl : size = 0 := hzero
    exact hfill true
  | readInto1 size =>
    obtain rfl : size = 0 := hzero
    exact hfill true

/-- One call delivers or discards the front of what is left, or fails once and for all. -/
theorem call_failing (hC : Complains Owes) (h : Failing Owes r bytes) {call : ReaderCall}
    (hasks : call.Asks total r.delivered) (htotal : bytes.length ≤ total) :
    (∃ answer piece later r', r.call call = (.ok answer, r') ∧ answer.Tells piece r'.delivered ∧
      bytes = piece ++ later ∧ Failing Owes r' later ∧
      r'.delivered = r.delivered + piece.length ∧ (call.wantsBytes = true → piece ≠ [])) ∨
    ∃ failure r', r.call call = (.error failure, r') ∧ Failing Owes r' [] := by
  cases call with
  | request request =>
    rcases Nat.eq_zero_or_pos request.size with hzero | hsize
    · have hnothing := h.answer_nothing hzero hasks
      rw [call, hnothing]
      have hwants : (ReaderCall.request request).wantsBytes = true → ([] : List UInt8) ≠ [] := by
        simp [ReaderCall.wantsBytes, hzero]
      exact .inl ⟨.bytes [], [], bytes, r, rfl, rfl, rfl, h, rfl, hwants⟩
    rw [call, answer_eq_fill r hsize]
    have key := fill_failing hC h request.isEager hsize
    rcases hf : r.fill request.isEager request.size with ⟨answer, r'⟩
    rw [hf] at key
    cases key with
    | @answered piece later _ nonempty _ failing delivered =>
      exact .inl ⟨.bytes piece, piece, later, r', rfl, rfl, rfl, failing, delivered, fun _ => nonempty⟩
    | failed failing => exact .inr ⟨_, r', rfl, failing⟩
  | readAll limit =>
    obtain ⟨failure, r', hall, hspoiled⟩ := readAll_failing hC h limit #[]
    rw [call, hall]
    exact .inr ⟨failure, r', rfl, hspoiled (Nat.lt_of_le_of_lt htotal hasks)⟩
  | seek goal =>
    obtain ⟨target, htarget⟩ := hasks
    rcases seek_failing hC h htarget with
      ⟨piece, later, r', hok, rfl, hfailing, hcount, hreached⟩ | ⟨failure, r', herror, hfailing⟩
    · rw [call, hok]
      exact .inl ⟨.position target, piece, later, r', rfl, hreached.symm, rfl, hfailing, hcount,
        fun h => Bool.noConfusion h⟩
    · rw [call, herror]
      exact .inr ⟨failure, r', rfl, hfailing⟩

/-- What calls have done of which none was refused. -/
structure Spent (Owes : σ → List UInt8 → List (List UInt8) → Prop) (r : Reader σ) (bytes : List UInt8)
    (calls : List ReaderCall) (left : List UInt8) : Prop where
  failing : Failing Owes (r.callAll calls).2 left
  length_le : left.length ≤ bytes.length
  spoiled {failure : Failure} : .error failure ∈ (r.callAll calls).1 → left = []
  handed : (∀ result ∈ (r.callAll calls).1, ∃ answer, result = .ok answer) →
    ∃ pieces, Handed r.delivered (r.callAll calls).1 pieces ∧ bytes = pieces.flatten ++ left ∧
      (r.callAll calls).2.delivered = r.delivered + pieces.flatten.length ∧
      calls.countP ReaderCall.wantsBytes ≤ pieces.flatten.length

/-- Any number of calls deliver or discard the front of what is left, until one fails once and for
all. -/
theorem callAll_failing (hC : Complains Owes) (h : Failing Owes r bytes) {calls : List ReaderCall}
    (hadmits : r.Admits total calls) (htotal : bytes.length ≤ total) :
    ∃ left, Spent Owes r bytes calls left := by
  induction calls generalizing r bytes with
  | nil =>
    exact ⟨bytes, h, Nat.le_refl _, fun hmem => absurd hmem List.not_mem_nil,
      fun _ => ⟨[], .nil, rfl, rfl, Nat.le_refl _⟩⟩
  | cons call calls ih =>
    obtain ⟨hasks, hothers⟩ := hadmits
    rcases call_failing hC h hasks htotal with
      ⟨answer, piece, later, r₁, hok, htells, rfl, hfailing, hcount, hread⟩ |
      ⟨failure, r₁, herror, hfailing⟩
    · rw [hok] at hothers
      have hlater : later.length ≤ (piece ++ later).length := by simp
      obtain ⟨left, hspent⟩ := ih hfailing hothers (Nat.le_trans hlater htotal)
      refine ⟨left, ?_, Nat.le_trans hspent.length_le hlater, ?_, ?_⟩
      · rw [callAll_cons, hok]
        exact hspent.failing
      · intro failure hmem
        rw [callAll_cons, hok] at hmem
        exact hspent.spoiled ((List.mem_cons.1 hmem).resolve_left fun h => nomatch h)
      · rw [callAll_cons, hok]
        intro hall
        obtain ⟨pieces, hhanded, rfl, hdelivered, hreads⟩ :=
          hspent.handed fun result hresult => hall result (List.mem_cons_of_mem _ hresult)
        rw [hcount] at htells hhanded hdelivered
        refine ⟨piece :: pieces, .cons htells hhanded, ?_, ?_, ?_⟩
        · rw [List.flatten_cons, List.append_assoc]
        · rw [hdelivered, List.flatten_cons, List.length_append, Nat.add_assoc]
        · rw [List.countP_cons, List.flatten_cons, List.length_append]
          split
          · next hwants =>
            have := List.length_pos_iff.2 (hread hwants)
            omega
          · omega
    · rw [herror] at hothers
      obtain ⟨left, hspent⟩ := ih hfailing hothers (Nat.zero_le _)
      have hnil : left = [] := List.eq_nil_of_length_eq_zero (Nat.le_zero.1 hspent.length_le)
      refine ⟨left, ?_, ?_, fun _ => hnil, ?_⟩
      · rw [callAll_cons, herror]
        exact hspent.failing
      · rw [hnil]
        exact Nat.zero_le _
      · rw [callAll_cons, herror]
        intro hall
        obtain ⟨answer, hanswer⟩ := hall _ List.mem_cons_self
        cases hanswer

/-- Whatever it is asked for, the reader delivers a front of the `content` and ends in a failure,
which is not taken for the end of the stream. -/
structure Exposes (r : Reader σ) (content : List UInt8) : Prop where
  /-- what is delivered or discarded until a call fails is a front of the content -/
  front {calls : List ReaderCall} : r.Admits content.length calls →
    (∀ result ∈ (r.callAll calls).1, ∃ answer, result = .ok answer) →
      ∃ pieces, Handed r.delivered (r.callAll calls).1 pieces ∧ pieces.flatten <+: content ∧
        (r.callAll calls).2.delivered = r.delivered + pieces.flatten.length
  /-- no request for some bytes is ever answered with none -/
  goes_on {calls : List ReaderCall} {request : Request} : r.Admits content.length calls →
    0 < request.size → ((r.callAll calls).2.answer request).1 ≠ .ok []
  /-- everything can never be read -/
  endless {calls : List ReaderCall} {limit : Nat} : r.Admits content.length calls →
    ∃ failure, ((r.callAll calls).2.readAll limit).1 = .error failure
  /-- no seek stops short -/
  lands {calls : List ReaderCall} {goal : SeekFrom} {target position : Nat} :
    r.Admits content.length calls → goal.target (r.callAll calls).2.delivered = .ok target →
      ((r.callAll calls).2.seek goal).1 = .ok position → position = target
  /-- if more calls ask for bytes than there are bytes, one of them fails -/
  ends {calls : List ReaderCall} : r.Admits content.length calls →
    content.length < calls.countP ReaderCall.wantsBytes →
      ∃ failure, .error failure ∈ (r.callAll calls).1
  /-- and after a failure every request for some bytes fails too -/
  spoiled {calls : List ReaderCall} {request : Request} {failure : Failure} :
    r.Admits content.length calls → .error failure ∈ (r.callAll calls).1 → 0 < request.size →
      ∃ failure', ((r.callAll calls).2.answer request).1 = .error failure'

/-- A result that is no failure is a success. -/
theorem exists_ok_of_not_error {α : Type} {results : List (Except Failure α)}
    (h : ¬ ∃ failure, .error failure ∈ results) : ∀ result ∈ results, ∃ value, result = .ok value := by
  intro result hmem
  cases result with
  | ok value => exact ⟨value, rfl⟩
  | error failure => exact absurd ⟨failure, hmem⟩ h

/-- A reader over a decoder that complains exposes the end of its input. -/
theorem Failing.exposes (hC : Complains Owes) (h : Failing Owes r bytes) : r.Exposes bytes where
  front {calls} := by
    intro hadmits hall
    obtain ⟨left, hspent⟩ := callAll_failing hC h hadmits (Nat.le_refl _)
    obtain ⟨pieces, hhanded, heq, hdelivered, -⟩ := hspent.handed hall
    exact ⟨pieces, hhanded, ⟨left, heq.symm⟩, hdelivered⟩
  goes_on {calls request} := by
    intro hadmits hsize hnil
    obtain ⟨left, hspent⟩ := callAll_failing hC h hadmits (Nat.le_refl _)
    have key := fill_failing hC hspent.failing request.isEager hsize
    rw [answer_eq_fill _ hsize] at hnil
    rw [hnil] at key
    cases key with
    | answered nonempty _ _ _ => exact nonempty rfl
  endless {calls limit} := by
    intro hadmits
    obtain ⟨left, hspent⟩ := callAll_failing hC h hadmits (Nat.le_refl _)
    obtain ⟨failure, r', hall, -⟩ := readAll_failing hC hspent.failing limit #[]
    exact ⟨failure, by rw [hall]⟩
  lands {calls goal target position} := by
    intro hadmits htarget hposition
    obtain ⟨left, hspent⟩ := callAll_failing hC h hadmits (Nat.le_refl _)
    rcases seek_failing hC hspent.failing htarget with
      ⟨piece, later, r', hok, -⟩ | ⟨failure, r', herror, -⟩
    · rw [hok] at hposition
      exact (Except.ok.inj hposition).symm
    · rw [herror] at hposition
      cases hposition
  ends {calls} := by
    intro hadmits hmany
    obtain ⟨left, hspent⟩ := callAll_failing hC h hadmits (Nat.le_refl _)
    refine Classical.byContradiction fun hnone => ?_
    obtain ⟨pieces, -, heq, -, hreads⟩ := hspent.handed (exists_ok_of_not_error hnone)
    have := congrArg List.length heq
    rw [List.length_append] at this
    omega
  spoiled {calls request failure} := by
    intro hadmits hfailed hsize
    obtain ⟨left, hspent⟩ := callAll_failing hC h hadmits (Nat.le_refl _)
    have hfailing := hspent.failing
    rw [hspent.spoiled hfailed] at hfailing
    rw [answer_eq_fill _ hsize]
    exact fill_spent hC hfailing request.isEager hsize

end Reader

/-! ## Iterators -/

namespace Pieces

/-- The iterator gives the pieces, then a failure, and nothing more. -/
inductive Fails : Pieces σ → List (List UInt8) → Prop where
  | last {p p' : Pieces σ} {failure : Failure} (stop : p.next = (some (.error failure), p'))
      (nothing : p'.next = (none, p')) : Fails p []
  | cons {p p₁ : Pieces σ} {piece : List UInt8} {pieces : List (List UInt8)}
      (first : p.next = (some (.ok piece), p₁)) (others : Fails p₁ pieces) :
      Fails p (piece :: pieces)

variable {Owes : σ → List UInt8 → List (List UInt8) → Prop}

/-- An iterator over a reader that fails gives the front of what is left, and then that failure. -/
theorem fails_of_failing (hC : Complains Owes) {p : Pieces σ} {bytes : List UInt8}
    (h : p.reader.Failing Owes bytes) (hsize : 0 < p.writeSize) (hdone : p.done = false) :
    ∃ pieces, p.Fails pieces ∧ pieces.flatten <+: bytes := by
  -- on the number of bytes that are left, since each piece takes some of them
  induction hlength : bytes.length using Nat.strongRecOn generalizing p bytes with
  | _ n ih =>
    have hdirection : p.reader.direction = .decompressing := by
      cases h with
      | intro _ _ decompressing _ _ => exact decompressing
    have hread : p.reader.read p.writeSize = p.reader.fill false p.writeSize :=
      if_neg (Nat.ne_of_gt hsize)
    have key := Reader.fill_failing hC h false hsize
    rcases hf : p.reader.fill false p.writeSize with ⟨answer, r'⟩
    rw [hf] at key hread
    cases key with
    | @answered piece later _ nonempty _ failing _ =>
      obtain ⟨byte, rest, rfl⟩ := List.exists_cons_of_ne_nil nonempty
      have hnext : p.next = (some (.ok (byte :: rest)), { p with reader := r' }) := by
        simp [next, hdone, hdirection, hread]
      have hlt : later.length < n := by
        simp only [List.length_append, List.length_cons] at hlength
        omega
      obtain ⟨pieces, hfails, hfront⟩ :=
        ih later.length hlt (p := { p with reader := r' }) failing hsize hdone rfl
      refine ⟨(byte :: rest) :: pieces, .cons hnext hfails, ?_⟩
      rw [List.flatten_cons, List.prefix_append_right_inj]
      exact hfront
    | @failed _ failure _ failing =>
      have hnext : p.next = (some (.error failure), { p with reader := r', done := true }) := by
        simp [next, hdone, hdirection, hread]
      exact ⟨[], .last hnext rfl, List.nil_prefix⟩

end Pieces

end Sluice
