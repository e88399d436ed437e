import Sluice.Proofs.ReaderBooks

/-!
# Pretended ends

A source may answer with nothing although it has bytes left. A reader takes that for the end, and
never asks again. To the reader, the source is one that really ends there.

* `Source.untilEmpty`, `Source.tillEnd` — the source up to its first empty answer, and
  `Source.whole_tillEnd`: that one does not pretend its end.
* `Reader.tillEnd` — a reader over such a source, and `Reader.sound_tillEnd`.
* `Reader.feed_tillEnd`, `Reader.drain_tillEnd`, `Reader.fill_tillEnd`, `Reader.serve_tillEnd` — it
  answers in the same way.
-/

namespace Sluice

namespace Source

/-- What there is of a plan and of a content until a request for `size` bytes is answered with
nothing. -/
def untilEmpty (size : Nat) : List Answer → List UInt8 → List Answer × List UInt8
  | [], content => ([], content)
  | .fail error :: plan, content =>
    let (answers, given) := untilEmpty size plan content
    (.fail error :: answers, given)
  | .move limit :: plan, content =>
    let first := content.take (min limit size)
    if first = [] then ([], [])
    else
      let (answers, given) := untilEmpty size plan (content.drop (min limit size))
      (.move limit :: answers, first ++ given)

/-- The source as a reader knows it that asks for `size` bytes at a time. -/
def tillEnd (size : Nat) (s : Source) : Source :=
  ⟨(untilEmpty size s.plan s.content).2, (untilEmpty size s.plan s.content).1, s.requests⟩

/-- The source after its end. -/
def spent (s : Source) : Source := ⟨[], [], s.requests⟩

variable {s s' : Source} {size : Nat}

@[simp] theorem untilEmpty_nil (size : Nat) (plan : List Answer) :
    (untilEmpty size plan []).2 = [] := by
  induction plan with
  | nil => rfl
  | cons answer plan ih =>
    cases answer with
    | move limit => simp [untilEmpty]
    | fail error => exact ih

theorem plan_untilEmpty (size : Nat) (plan : List Answer) (content : List UInt8) :
    (untilEmpty size plan content).1 <+: plan := by
  induction plan generalizing content with
  | nil => exact List.prefix_rfl
  | cons answer plan ih =>
    cases answer with
    | move limit =>
      simp only [untilEmpty]
      split
      · exact List.nil_prefix
      · exact List.cons_prefix_cons.2 ⟨rfl, ih _⟩
    | fail error => exact List.cons_prefix_cons.2 ⟨rfl, ih _⟩

/-- Up to its end, a source does not pretend one. -/
theorem whole_tillEnd (size : Nat) (s : Source) : (s.tillEnd size).Whole := by
  rw [Whole, tillEnd]
  generalize s.content = content
  induction s.plan generalizing content with
  | nil => exact List.not_mem_nil
  | cons answer plan ih =>
    cases answer with
    | move limit =>
      simp only [untilEmpty]
      split
      · exact List.not_mem_nil
      · next hfirst =>
        rintro (_ | ⟨_, hmem⟩)
        · exact hfirst (by rw [Nat.zero_min, List.take_zero])
        · exact ih _ hmem
    | fail error =>
      rintro (_ | ⟨_, hmem⟩)
      exact ih _ hmem

theorem failures_tillEnd_le (size : Nat) (s : Source) : (s.tillEnd size).failures ≤ s.failures :=
  (plan_untilEmpty size s.plan s.content).sublist.countP_le

/-! ## Requests -/

/-- The bytes of one answer in front of those of the later ones. -/
theorem take_take_append {content given : List UInt8} {count : Nat}
    (h : content.drop count = [] → given = []) :
    (content.take count ++ given).take count = content.take count ∧
      (content.take count ++ given).drop count = given := by
  by_cases hlength : content.length ≤ count
  · obtain rfl := h (List.drop_eq_nil_of_le hlength)
    simp [List.take_of_length_le, hlength]
  · have hfull : (content.take count).length = count := List.length_take_of_le (by omega)
    exact ⟨List.take_left' hfull, List.drop_left' hfull⟩

/-- Up to the end, the source answers in the same way. -/
theorem read_tillEnd_ok {bytes : List UInt8} (h : s.read size = (.ok bytes, s'))
    (hne : bytes ≠ []) : (s.tillEnd size).read size = (.ok bytes, s'.tillEnd size) := by
  rcases s with ⟨content, _ | ⟨limit | error, plan⟩, requests⟩
  · cases h
    rfl
  · cases h
    have hmissing : (untilEmpty size plan (content.drop (min limit size))).2 = [] ∨
        content.drop (min limit size) ≠ [] := by
      rcases hdrop : content.drop (min limit size) with _ | ⟨byte, rest⟩
      · exact .inl (untilEmpty_nil size plan)
      · exact .inr (List.cons_ne_nil byte rest)
    obtain ⟨htake, hdrop⟩ := take_take_append fun hnil => hmissing.resolve_right fun h => h hnil
    simp only [tillEnd, untilEmpty, if_neg hne, read, give, htake, hdrop]
  · cases h

/-- And at the end it has none left. -/
theorem read_tillEnd_nil (hsize : 0 < size) (h : s.read size = (.ok [], s')) :
    (s.tillEnd size).read size = (.ok [], s'.spent) := by
  rcases s with ⟨content, _ | ⟨limit | error, plan⟩, requests⟩
  · obtain ⟨hbytes, rfl⟩ := Prod.mk.inj h
    have hnil : content.take size = [] := Except.ok.inj hbytes
    obtain rfl := (List.take_eq_nil_iff.1 hnil).resolve_left (Nat.ne_of_gt hsize)
    simp [tillEnd, untilEmpty, read, give, spent]
  · obtain ⟨hbytes, rfl⟩ := Prod.mk.inj h
    have hnil : content.take (min limit size) = [] := Except.ok.inj hbytes
    simp [tillEnd, untilEmpty, hnil, read, give, spent]
  · cases h

theorem read_tillEnd_error {error : IoError} (h : s.read size = (.error error, s')) :
    (s.tillEnd size).read size = (.error error, s'.tillEnd size) := by
  rcases s with ⟨content, _ | ⟨limit | error, plan⟩, requests⟩
  · cases h
  · cases h
  · cases h
    rfl

/-! ## Pulls -/

theorem pull_tillEnd_ok {bytes : List UInt8} (hsize : 0 < size)
    (h : s.pull size = (.ok bytes, s')) :
    (s.tillEnd size).pull size =
      (.ok bytes, if bytes = [] then s'.spent else s'.tillEnd size) := by
  fun_induction pull s size with
  | case1 s got s₁ hr =>
    cases h
    split
    · next hnil =>
      subst hnil
      exact pull_of_read_ok (read_tillEnd_nil hsize hr)
    · next hne => exact pull_of_read_ok (read_tillEnd_ok hr hne)
  | case2 s error s₁ hr hk ih =>
    rw [pull_of_read_error (read_tillEnd_error hr), if_pos hk]
    exact ih h
  | case3 s error s₁ hr hk => cases h

theorem pull_tillEnd_error {failure : Failure} (h : s.pull size = (.error failure, s')) :
    (s.tillEnd size).pull size = (.error failure, s'.tillEnd size) := by
  fun_induction pull s size with
  | case1 s got s₁ hr => cases h
  | case2 s error s₁ hr hk ih =>
    rw [pull_of_read_error (read_tillEnd_error hr), if_pos hk]
    exact ih h
  | case3 s error s₁ hr hk =>
    cases h
    rw [pull_of_read_error (read_tillEnd_error hr), if_neg hk]

end Source

/-! ## Readers -/

namespace Reader

variable {σ : Type} {r r' : Reader σ}

/-- A reader over its source up to the end. Once the reader has met that, the source is over. -/
def tillEnd (r : Reader σ) : Reader σ :=
  { r with source := if r.inputDone then r.source.spent else r.source.tillEnd r.readSize }

/-- It can rely on its source. -/
theorem sound_tillEnd (hsize : 0 < r.readSize) : r.tillEnd.Sound where
  readSize_pos := hsize
  whole := by
    cases hdone : r.inputDone with
    | true => simp [tillEnd, hdone, Source.spent, Source.Whole]
    | false => simpa [tillEnd, hdone] using Source.whole_tillEnd r.readSize r.source
  content_nil := by
    intro hdone
    have hdone' : r.inputDone = true := hdone
    simp [tillEnd, hdone', Source.spent]

theorem failures_tillEnd_le (r : Reader σ) : r.tillEnd.source.failures ≤ r.source.failures := by
  cases hdone : r.inputDone with
  | true => simp [tillEnd, hdone, Source.spent, Source.failures]
  | false => simpa [tillEnd, hdone] using Source.failures_tillEnd_le r.readSize r.source

/-- A pull from the source up to its end. -/
theorem pull_tillEnd {result : Except Failure Unit} (hsize : 0 < r.readSize)
    (hdone : r.inputDone = false) (hp : r.pull = (result, r')) :
    r.tillEnd.pull = (result, r'.tillEnd) := by
  have hsource : r.tillEnd.source = r.source.tillEnd r.readSize := by simp [tillEnd, hdone]
  cases result with
  | error failure =>
    obtain ⟨source, hpull, rfl⟩ := pull_error_inv hp
    have hpull' := Source.pull_tillEnd_error hpull
    rw [← hsource] at hpull'
    rw [pull_of_source_error hpull']
    simp [tillEnd, hdone]
  | ok =>
    obtain ⟨bytes, source, hpull, rfl⟩ := pull_ok_inv hp
    have hpull' := Source.pull_tillEnd_ok hsize hpull
    rw [← hsource] at hpull'
    rw [pull_of_source_ok hpull']
    simp [tillEnd, hdone]

variable [Codec σ]

/-- A step that has moved nothing, and that ends nothing, is followed by a pull, which may fail. -/
theorem feedStepped_refused {eager : Bool} {left : Nat} {moved : Prop} [Decidable moved]
    {window : Window} {failure : Failure} (hgoes : ¬ (left = 0 ∧ r.stopsAtFrameEnd = true))
    (hgot : (window.isFull || (eager && 0 < window.pos)) = false) (hmoved : ¬ moved)
    (hdone : r.inputDone = false) (hp : r.pull = (.error failure, r')) :
    feedStepped eager r left moved window = (.error failure, r') := by
  rw [feedStepped, if_neg hgoes, if_neg (Bool.eq_false_iff.1 hgot), if_neg hmoved,
    if_neg (Bool.eq_false_iff.1 hdone), hp]

/-- The loop that steps and pulls does not see the difference. -/
theorem feed_tillEnd (hsize : 0 < r.readSize) (eager : Bool) (window : Window) :
    feed eager r.tillEnd window = ((feed eager r window).1, (feed eager r window).2.tillEnd) := by
  fun_induction feed eager r window
  case case1 r window hpending hdone =>
    have hdone' : r.tillEnd.inputDone = true := hdone
    have hpending' : r.tillEnd.pending.isEmpty = true := hpending
    rw [feed, if_pos hpending', dif_pos hdone']
  case case2 r window hpending hdone failure r₁ hp =>
    rw [Bool.not_eq_true] at hdone
    exact feed_refused (r := r.tillEnd) (List.isEmpty_iff.1 hpending) hdone
      (pull_tillEnd hsize hdone hp)
  case case3 r window hpending hdone r₁ hp ih =>
    rw [Bool.not_eq_true] at hdone
    have hsize₁ : 0 < r₁.readSize := by
      obtain ⟨bytes, source, -, rfl⟩ := pull_ok_inv hp
      exact hsize
    have hpull := pull_tillEnd hsize hdone hp
    exact (feed_pull (r := r.tillEnd) (List.isEmpty_iff.1 hpending) hdone hpull).trans (ih hsize₁)
  case case4 r window hpending codec hretired =>
    have hretired' : r.tillEnd.codec = .retired codec := hretired
    have hpending' : ¬ r.tillEnd.pending.isEmpty = true := hpending
    rw [feed, if_neg hpending']
    simp only [hretired']
  case case5 r window hpending codec hlive driven failure hres =>
    have hlive' : r.tillEnd.codec = .live codec := hlive
    have hpending' : ¬ r.tillEnd.pending.isEmpty = true := hpending
    have hres' : (drive codec (.ofList r.tillEnd.pending) window .proceed).result =
      .error failure := hres
    rw [feed, if_neg hpending']
    simp only [hlive', hres']
    rfl
  case case6 r window hpending codec hlive driven left hres stepped hstop =>
    exact (feed_eq_feedStepped (r := r.tillEnd) hpending hlive hres).trans (if_pos hstop)
  case case7 r window hpending codec hlive driven left hres stepped hstop hgot =>
    exact (feed_eq_feedStepped (r := r.tillEnd) hpending hlive hres).trans
      ((if_neg hstop).trans (if_pos hgot))
  case case8 r window hpending codec hlive driven left hres stepped hstop hgot hmoved ih =>
    exact (feed_eq_feedStepped (r := r.tillEnd) hpending hlive hres).trans
      ((if_neg hstop).trans ((if_neg hgot).trans ((if_pos hmoved).trans (ih hsize))))
  case case9 r window hpending codec hlive driven left hres stepped hstop hgot hmoved hdone =>
    exact (feed_eq_feedStepped (r := r.tillEnd) hpending hlive hres).trans
      ((if_neg hstop).trans ((if_neg hgot).trans ((if_neg hmoved).trans (if_pos hdone))))
  case case10 r window hpending codec hlive driven left hres stepped hstop hgot hmoved hdone failure
      r₁ hp =>
    rw [Bool.not_eq_true] at hdone hgot
    have hpull := pull_tillEnd (r := stepped) hsize hdone hp
    exact (feed_eq_feedStepped (r := r.tillEnd) hpending hlive hres).trans
      (feedStepped_refused (r := stepped.tillEnd) hstop hgot hmoved hdone hpull)
  case case11 r window hpending codec hlive driven left hres stepped hstop hgot hmoved hdone r₁ hp
      ih =>
    rw [Bool.not_eq_true] at hdone hgot
    have hsize₁ : 0 < r₁.readSize := by
      obtain ⟨bytes, source, -, rfl⟩ := pull_ok_inv hp
      exact hsize
    have hpull := pull_tillEnd (r := stepped) hsize hdone hp
    exact (feed_eq_feedStepped (r := r.tillEnd) hpending hlive hres).trans
      ((feedStepped_idle (r := stepped.tillEnd) hstop hgot hmoved hdone hpull).trans (ih hsize₁))

/-- Neither does the one that empties the codec: it does not ask the source at all. -/
theorem drain_tillEnd (r : Reader σ) (window : Window) :
    drain r.tillEnd window = ((drain r window).1, (drain r window).2.tillEnd) := by
  fun_induction drain r window
  case case1 r window codec hretired =>
    have hretired' : r.tillEnd.codec = .retired codec := hretired
    rw [drain]
    simp only [hretired']
  case case2 r window codec hlive driven stepped failure hres =>
    have hlive' : r.tillEnd.codec = .live codec := hlive
    have hres' : (drive codec .empty window .finish).result = .error failure := hres
    rw [drain]
    simp only [hlive', hres']
    rfl
  case case3 r window codec hlive driven stepped left hres hmoved hfull =>
    have hlive' : r.tillEnd.codec = .live codec := hlive
    have hres' : (drive codec .empty window .finish).result = .ok left := hres
    rw [drain]
    simp only [hlive', hres']
    exact (dif_pos hmoved).trans (if_pos hfull)
  case case4 r window codec hlive driven stepped left hres hmoved hfull ih =>
    have hlive' : r.tillEnd.codec = .live codec := hlive
    have hres' : (drive codec .empty window .finish).result = .ok left := hres
    rw [drain]
    simp only [hlive', hres']
    exact (dif_pos hmoved).trans ((if_neg hfull).trans ih)
  case case5 r window codec hlive driven stepped left hres hmoved =>
    have hlive' : r.tillEnd.codec = .live codec := hlive
    have hres' : (drive codec .empty window .finish).result = .ok left := hres
    rw [drain]
    simp only [hlive', hres']
    exact dif_neg hmoved

/-- What a codec is told has nothing to do with the source. -/
theorem settlePledge_tillEnd (r : Reader σ) :
    r.tillEnd.settlePledge = (r.settlePledge.1, r.settlePledge.2.tillEnd) ∧
      r.settlePledge.2.readSize = r.readSize := by
  unfold settlePledge
  rw [show r.tillEnd.owesPledge = r.owesPledge from rfl, show r.tillEnd.codec = r.codec from rfl]
  split
  · split
    · exact ⟨rfl, rfl⟩
    · split <;> exact ⟨rfl, rfl⟩
  · exact ⟨rfl, rfl⟩

/-- A request is answered in the same way. -/
theorem fill_tillEnd (hsize : 0 < r.readSize) (eager : Bool) (size : Nat) :
    r.tillEnd.fill eager size = ((r.fill eager size).1, (r.fill eager size).2.tillEnd) := by
  obtain ⟨hpledge, hread⟩ := settlePledge_tillEnd r
  rw [fill, fill, show r.tillEnd.phase = r.phase from rfl,
    show r.tillEnd.outputDone = r.outputDone from rfl, hpledge]
  split
  · rfl
  split
  · rfl
  rcases hsettle : r.settlePledge with ⟨failure | ⟨⟩, r₁⟩
  · rfl
  rw [hsettle] at hread
  have hfeed' := feed_tillEnd (hread ▸ hsize) eager (.fresh size)
  rcases hfeed : feed eager r₁ (.fresh size) with ⟨failure | w, r₂⟩
  · simp only [hfeed', hfeed]
  simp only [hfeed', hfeed]
  have hdrain' : (if r₂.tillEnd.canDrain w then drain r₂.tillEnd w else (.ok w, r₂.tillEnd)) =
      ((if r₂.canDrain w then drain r₂ w else (.ok w, r₂)).1,
        (if r₂.canDrain w then drain r₂ w else (.ok w, r₂)).2.tillEnd) := by
    rw [show r₂.tillEnd.canDrain w = r₂.canDrain w from rfl]
    split
    · exact drain_tillEnd r₂ w
    · rfl
  rw [hdrain']
  rcases (if r₂.canDrain w then drain r₂ w else (.ok w, r₂)) with ⟨failure | w', r₃⟩ <;> rfl

/-- Every request is answered in the same way. -/
theorem answer_tillEnd (hsize : 0 < r.readSize) (request : Request) :
    r.tillEnd.answer request = ((r.answer request).1, (r.answer request).2.tillEnd) := by
  cases request with
  | read size =>
    change r.tillEnd.read size = ((r.read size).1, (r.read size).2.tillEnd)
    rw [Reader.read, Reader.read]
    split
    · rfl
    · exact fill_tillEnd hsize false size
  | readInto size => exact fill_tillEnd hsize false size
  | read1 size => exact fill_tillEnd hsize true size
  | readInto1 size => exact fill_tillEnd hsize true size

/-- Whatever is asked for, the answers are those of a reader whose source really ends where this one
first answers with nothing. -/
theorem serve_tillEnd {s : σ} (hsize : 0 < r.readSize) (hcodec : r.codec = .live s)
    (requests : List Request) :
    r.tillEnd.serve requests = ((r.serve requests).1, (r.serve requests).2.tillEnd) := by
  induction requests generalizing r s with
  | nil => rfl
  | cons request requests ih =>
    obtain ⟨moves, s', hserved, -⟩ := answer_served request hcodec
    have hread := hserved.acts.readSize
    rw [serve, serve, answer_tillEnd hsize]
    simp only [ih (hread ▸ hsize) hserved.acts.codec]

end Reader

end Sluice
