import Sluice.Proofs.BlockBooks

/-!
# Extending up to the limit

Blocks are extended by what fits, to the byte: nothing that fits is dropped, and nothing beyond the
limit is stored. How the bytes are cut into pieces has no influence on the blocks.

* `BlockList.extendLoop_eq` — the loop of an extension needs no more rounds than it has bytes.
* `BlockList.extend_append`, `BlockList.extendEach_eq` — pieces one after the other, and at once.
* `BlockList.extend_exact` — what an extension answers, and what the blocks hold by then.
-/

namespace Sluice

/-! ## Windows -/

/-- What fits into a window can be written to it in two pieces. -/
theorem Window.put_put {w : Window} {front : List UInt8} (h : front.length ≤ w.spare)
    (back : List UInt8) : (w.put front).put back = w.put (front ++ back) := by
  have htake : (front ++ back).take w.spare = front ++ back.take (w.spare - front.length) := by
    rw [List.take_append, List.take_of_length_le h]
  have hwritten : w.written ++ front ++ back.take (w.spare - front.length) =
      w.written ++ (front ++ back.take (w.spare - front.length)) := by
    apply Array.toList_inj.1
    simp
  simp only [put, List.take_of_length_le h, htake, hwritten, List.length_append, List.drop_drop,
    Nat.sub_add_eq]

/-- What does not fit makes no difference. -/
theorem Window.put_append {w : Window} {front : List UInt8} (h : w.spare ≤ front.length)
    (back : List UInt8) : w.put (front ++ back) = w.put front := by
  simp only [put, List.take_append_of_le_length h]

namespace BlockList

variable {b b' : BlockList} {bytes front back held : List UInt8}

/-! ## One round -/

theorem extend_nil (b : BlockList) : b.extend [] = (.ok (), b) := by
  rw [extend, dif_pos rfl]

theorem extend_of_makeRoom (hroom : b.makeRoom = .ok b') (hspare : 0 < b'.active.spare)
    (hne : bytes ≠ []) :
    b.extend bytes = (b'.put bytes).extend (bytes.drop b'.active.spare) := by
  rw [extend, dif_neg hne]
  simp only [hroom, dif_neg (Nat.ne_of_gt hspare)]

theorem extend_of_error {failure : Failure} (hroom : b.makeRoom = .error failure)
    (hne : bytes ≠ []) : b.extend bytes = (.error failure, b) := by
  rw [extend, dif_neg hne]
  simp only [hroom]

/-! ## The loop -/

/-- The loop of an extension: room is made, and as much is copied as there is room for. It may run for
`rounds` rounds. -/
def extendLoop : (rounds : Nat) → (b : BlockList) → (bytes : List UInt8) →
    Option (Except Failure Unit × BlockList)
  | _, b, [] => some (.ok (), b)
  | 0, _, _ :: _ => none
  | rounds + 1, b, byte :: rest =>
    match b.makeRoom with
    | .error failure => some (.error failure, b)
    | .ok roomy =>
      extendLoop rounds (roomy.put (byte :: rest)) ((byte :: rest).drop roomy.active.spare)

/-- Each round copies a byte at least, so the loop ends. -/
theorem extendLoop_eq {rounds : Nat} (hwithin : ∀ m, b.limit = some m → b.allocated ≤ m)
    (hrounds : bytes.length ≤ rounds) : extendLoop rounds b bytes = some (b.extend bytes) := by
  induction rounds generalizing b bytes with
  | zero =>
    obtain rfl := List.length_eq_zero_iff.1 (Nat.le_zero.1 hrounds)
    rw [extendLoop, extend_nil]
  | succ rounds ih =>
    cases bytes with
    | nil => rw [extendLoop, extend_nil]
    | cons byte rest =>
      have hne : byte :: rest ≠ [] := nofun
      cases hroom : b.makeRoom with
      | error failure => simp only [extendLoop, hroom, extend_of_error hroom hne]
      | ok roomy =>
        have hspare := spare_pos_of_makeRoom hwithin hroom
        have hwithin₁ := within_makeRoom hwithin hroom
        simp only [extendLoop, hroom, extend_of_makeRoom hroom hspare hne]
        refine ih hwithin₁ ?_
        rw [List.length_drop]
        omega

/-! ## Pieces -/

/-- Within the block being written, it makes no difference when the front is written. -/
theorem extend_put (hfits : front.length ≤ b.active.spare) (back : List UInt8) :
    (b.put (front ++ back)).extend ((front ++ back).drop b.active.spare) =
      (b.put front).extend back := by
  have hput : (b.put front).put back = b.put (front ++ back) := by
    rw [put, put, put, modifyActive, modifyActive, modifyActive, Window.put_put hfits]
  have hspare : (b.put front).active.spare = b.active.spare - front.length := Window.spare_put ..
  have hdrop : (front ++ back).drop b.active.spare = back.drop (b.active.spare - front.length) := by
    rw [List.drop_append, List.drop_eq_nil_of_le hfits, List.nil_append]
  rw [hdrop]
  rcases Nat.lt_or_eq_of_le hfits with hlt | heq
  · -- the block has room for some more
    have hmore : 0 < (b.put front).active.spare := by omega
    have hroom : (b.put front).makeRoom = .ok (b.put front) := by
      have hopen : (b.put front).isFull = false := beq_eq_false_iff_ne.2 (Nat.ne_of_gt hmore)
      rw [makeRoom, if_pos (by rw [hopen]; rfl)]
    by_cases hnil : back = []
    · rw [hnil, List.drop_nil, extend_nil, extend_nil, List.append_nil]
    · rw [extend_of_makeRoom hroom hmore hnil, hput, hspare]
  · have hsame : b.put (front ++ back) = b.put front := by
      rw [put, put, modifyActive, modifyActive, Window.put_append (Nat.le_of_eq heq.symm)]
    rw [hsame, heq, Nat.sub_self, List.drop_zero]

/-- Extending with more bytes goes on where the front has been placed, and is over where it has not. -/
theorem extend_append (hwithin : ∀ m, b.limit = some m → b.allocated ≤ m)
    (front back : List UInt8) :
    b.extend (front ++ back) =
      match b.extend front with
      | (.ok (), b') => b'.extend back
      | (.error failure, b') => (.error failure, b') := by
  fun_induction extend b front with
  | case1 b => rfl
  | case2 b front hne failure hroom =>
    exact extend_of_error hroom (List.append_ne_nil_of_left_ne_nil hne back)
  | case3 b front hne roomy hroom hspare =>
    exact absurd hspare (Nat.ne_of_gt (spare_pos_of_makeRoom hwithin hroom))
  | case4 b front hne roomy hroom hspare ih =>
    have hpos := spare_pos_of_makeRoom hwithin hroom
    have hwithin₁ := within_makeRoom hwithin hroom
    rw [extend_of_makeRoom hroom hpos (List.append_ne_nil_of_left_ne_nil hne back)]
    rcases Nat.le_total front.length roomy.active.spare with hfits | hlong
    · rw [extend_put hfits, List.drop_eq_nil_of_le hfits, extend_nil]
    · rw [← ih hwithin₁, List.drop_append_of_le_length hlong, put, put,
        modifyActive, modifyActive, Window.put_append hlong]

/-- Extend with one piece after the other, whatever the answers are. -/
def extendEach (b : BlockList) (pieces : List (List UInt8)) : BlockList :=
  pieces.foldl (fun b piece => (b.extend piece).2) b

theorem within_extend (hwithin : ∀ m, b.limit = some m → b.allocated ≤ m) (bytes : List UInt8) :
    ∀ m, (b.extend bytes).2.limit = some m → (b.extend bytes).2.allocated ≤ m :=
  extend_induction (P := fun b => ∀ m, b.limit = some m → b.allocated ≤ m) (fun _ _ h => h)
    (fun _ _ h _ => within_grow h) hwithin

/-- After a failure, whatever is to be added fails as well. -/
theorem extend_after_error {failure : Failure}
    (hwithin : ∀ m, b.limit = some m → b.allocated ≤ m)
    (h : b.extend bytes = (.error failure, b')) (more : List UInt8) : (b'.extend more).2 = b' := by
  have hended := extended hwithin bytes
  rw [h] at hended
  have hroom : ∃ failure, b'.makeRoom = .error failure := by
    cases hended with
    | pastLimit short join full limit =>
      exact ⟨_, by rw [makeRoom, if_neg (by simp [full]), if_pos (by simp [atLimit, limit])]⟩
    | overflow short join full next large =>
      have hbelow : ¬ b'.atLimit = true := by
        intro hat
        have hle := nextSize_le (show b'.limit = some b'.allocated by simpa [atLimit] using hat)
        omega
      exact ⟨_, by rw [makeRoom, if_neg (by simp [full]), if_neg hbelow, grow_overflow next large]⟩
  obtain ⟨cause, hcause⟩ := hroom
  by_cases hmore : more = []
  · rw [hmore, extend_nil]
  · rw [extend_of_error hcause hmore]

/-- However bytes are cut into pieces, the blocks become the same. -/
theorem extendEach_eq (hwithin : ∀ m, b.limit = some m → b.allocated ≤ m)
    (pieces : List (List UInt8)) : b.extendEach pieces = (b.extend pieces.flatten).2 := by
  induction pieces generalizing b with
  | nil => rw [List.flatten_nil, extend_nil, extendEach, List.foldl_nil]
  | cons piece pieces ih =>
    have hrest := ih (within_extend hwithin piece)
    rw [extendEach, List.foldl_cons, ← extendEach, hrest, List.flatten_cons,
      extend_append hwithin]
    rcases hpiece : b.extend piece with ⟨failure | ⟨⟩, b₁⟩
    · exact extend_after_error hwithin hpiece _
    · rfl

/-! ## What fits -/

theorem limit_extend (b : BlockList) (bytes : List UInt8) : (b.extend bytes).2.limit = b.limit :=
  extend_induction (P := fun b' => b'.limit = b.limit) (fun _ _ h => h)
    (fun _ _ h _ hgrow => (limit_grow hgrow).trans h) rfl

/-- All blocks but the last are full, in numbers. -/
theorem EarlierFull.packed (h : b.EarlierFull) (hcounted : b.allocated = b.capacity) : b.Packed := by
  have hearlier : b.earlier.toList.map Window.capacity = b.earlier.toList.map Window.pos := by
    refine List.map_congr_left fun w hw => ?_
    have hfull : w.spare = 0 := by simpa [Window.isFull] using h w (Array.mem_toList_iff.1 hw)
    rw [Window.capacity, hfull, Nat.add_zero]
  have hsize : b.join.size = (b.earlier.toList.map Window.pos).sum + b.active.pos := by
    rw [← Array.length_toList, toList_join, List.length_append, Array.toList_flatMap,
      List.length_flatMap]
    rfl
  rw [Packed, hcounted, hsize, capacity, blocks, Array.toList_push, List.map_append, List.sum_append,
    hearlier, List.map_singleton, List.sum_singleton, Window.capacity, Nat.add_assoc]

/-- Extended blocks hold no more than there has been allocated, and have room for the rest. -/
theorem packed_extend (h : Used Anyhow b held) (hearlier : b.EarlierFull) (data : List UInt8) :
    (b.extend data).2.allocated =
      (b.extend data).2.join.toList.length + (b.extend data).2.active.spare := by
  rw [Array.length_toList]
  exact (hearlier.extend data).packed (h.books.extend data).counted

/-- Full blocks are as large as what they hold. -/
theorem allocated_of_full {count : Nat}
    (hpacked : b.allocated = b.join.toList.length + b.active.spare) (hfull : b.isFull = true)
    (hshort : count < bytes.length) (hjoin : b.join.toList = held ++ bytes.take count) :
    b.allocated = held.length + count := by
  have hspare : b.active.spare = 0 := by simpa [isFull, Window.isFull] using hfull
  rw [hpacked, hjoin, List.length_append, List.length_take_of_le (Nat.le_of_lt hshort), hspare,
    Nat.add_zero]

theorem extend_overflow (h : Used Anyhow b held) (hearlier : b.EarlierFull) (data : List UInt8)
    (hfails : (b.extend data).1 = .error (.allocation .overflow)) :
    (∀ m, b.limit = some m → allocationLimit < m) ∧
      allocationLimit < held.length + data.length + largestBlock := by
  have hended := extended h.books.within data
  have hpacked := packed_extend h hearlier data
  have hlimit := limit_extend b data
  generalize b.extend data = answer at hended hpacked hlimit hfails
  cases hended with
  | placed join => cases hfails
  | pastLimit short join full limit => cases hfails
  | @overflow b' count short join full next large =>
    rw [h.books.join] at join
    have hallocated : b'.allocated = held.length + count :=
      allocated_of_full hpacked full short join
    refine ⟨fun m hm => ?_, ?_⟩
    · have hle : b'.nextSize ≤ m - b'.allocated := nextSize_le (hlimit.trans hm)
      omega
    · have hle := nextSize_le_largestBlock b'
      omega

theorem extend_fits (h : Used Anyhow b held) (hearlier : b.EarlierFull) (data : List UInt8)
    (hmemory : (b.extend data).1 ≠ .error (.allocation .overflow)) :
    ((b.extend data).1 = .ok () ↔ ∀ m, b.limit = some m → held.length + data.length ≤ m) ∧
      ((b.extend data).1 = .ok () → (b.extend data).2.join.toList = held ++ data) ∧
      ∀ m, b.limit = some m → m < held.length + data.length →
        (b.extend data).1 = .error (.allocation (.pastLimit m)) ∧
        (b.extend data).2.join.toList = held ++ data.take (m - held.length) ∧
        (∀ w ∈ (b.extend data).2.blocks, w.isFull = true) ∧
        (b.extend data).2.allocated = m := by
  have hended := extended h.books.within data
  have hpacked := packed_extend h hearlier data
  have hlimit := limit_extend b data
  have hwithin := within_extend h.books.within data
  have hfull := hearlier.extend data
  generalize b.extend data = answer at hended hpacked hlimit hwithin hfull hmemory ⊢
  cases hended with
  | placed join =>
    rw [h.books.join] at join
    rw [join, List.length_append] at hpacked
    have hfits : ∀ m, b.limit = some m → held.length + data.length ≤ m := by
      intro m hm
      have hle := hwithin m (hlimit.trans hm)
      omega
    exact ⟨iff_of_true rfl hfits, fun _ => join, fun m hm hlt => absurd (hfits m hm) (by omega)⟩
  | @pastLimit b' count short join full limit =>
    rw [h.books.join] at join
    have hallocated : b'.allocated = held.length + count :=
      allocated_of_full hpacked full short join
    have hat : b.limit = some b'.allocated := hlimit.symm.trans limit
    refine ⟨iff_of_false nofun fun hfits => ?_, nofun, fun m hm hlt => ?_⟩
    · have hle := hfits _ hat
      omega
    · obtain rfl : b'.allocated = m := Option.some.inj (hat.symm.trans hm)
      refine ⟨rfl, ?_, fun w hw => ?_, rfl⟩
      · rw [join, hallocated, Nat.add_sub_cancel_left]
      · rcases Array.mem_push.1 hw with hw | rfl
        · exact hfull w hw
        · exact full
  | overflow short join full next large => exact absurd rfl hmemory

/-- Extending blocks of which all but the last are full. It ends, after as many rounds as there are
bytes at most. It fails for want of memory only if the limit, and what there would be to hold and
another block, are beyond what memory can be. Otherwise it succeeds exactly if the limit leaves room for
all of the bytes, and then they are behind what there was; and if not, it reports the limit, and as many
as fit are, and fill all blocks up to the limit. Bytes in pieces lead to the same blocks as all of
them at once. -/
theorem extend_exact (h : Used Anyhow b held) (hearlier : b.EarlierFull) (data : List UInt8) :
    (∀ rounds, data.length ≤ rounds → extendLoop rounds b data = some (b.extend data)) ∧
    ((b.extend data).1 = .error (.allocation .overflow) →
      (∀ m, b.limit = some m → allocationLimit < m) ∧
        allocationLimit < held.length + data.length + largestBlock) ∧
    ((b.extend data).1 ≠ .error (.allocation .overflow) →
      ((b.extend data).1 = .ok () ↔ ∀ m, b.limit = some m → held.length + data.length ≤ m) ∧
      ((b.extend data).1 = .ok () → (b.extend data).2.join.toList = held ++ data) ∧
      ∀ m, b.limit = some m → m < held.length + data.length →
        (b.extend data).1 = .error (.allocation (.pastLimit m)) ∧
        (b.extend data).2.join.toList = held ++ data.take (m - held.length) ∧
        (∀ w ∈ (b.extend data).2.blocks, w.isFull = true) ∧
        (b.extend data).2.allocated = m) ∧
    ∀ pieces : List (List UInt8), pieces.flatten = data → b.extendEach pieces = (b.extend data).2 := by
  have hwithin := h.books.within
  exact ⟨fun rounds => extendLoop_eq hwithin, extend_overflow h hearlier data,
    extend_fits h hearlier data, fun pieces hpieces => hpieces ▸ extendEach_eq hwithin pieces⟩

/-- Two bytes under a limit of five: three more fit, and of four more the last does not, in one piece
or in several. -/
theorem extend_exact_five_bytes :
    ∃ b, Used Anyhow b [1, 2] ∧ b.EarlierFull ∧ b.limit = some 5 ∧
      (b.extend [3, 4, 5]).1 = .ok () ∧ (b.extend [3, 4, 5]).2.join.toList = [1, 2, 3, 4, 5] ∧
      (b.extend [3, 4, 5, 6]).1 = .error (.allocation (.pastLimit 5)) ∧
      (b.extend [3, 4, 5, 6]).2.join.toList = [1, 2, 3, 4, 5] ∧
      (b.extendEach [[3], [], [4, 5, 6]]).join.toList = [1, 2, 3, 4, 5] := by
  have hused : Used Anyhow _ [1, 2] := .apply (.put [1, 2]) (.start (some 5)) trivial
  have hearlier : EarlierFull ((start (some 5)).apply (.put [1, 2])) := nofun
  have hmemory : ¬ allocationLimit < 5 := by decide
  obtain ⟨-, hlarge, hfits, -⟩ := extend_exact hused hearlier [3, 4, 5]
  obtain ⟨-, hlarge', hfits', hpieces⟩ := extend_exact hused hearlier [3, 4, 5, 6]
  obtain ⟨hiff, hheld, -⟩ := hfits fun h => hmemory ((hlarge h).1 5 rfl)
  obtain ⟨-, -, hexcess⟩ := hfits' fun h => hmemory ((hlarge' h).1 5 rfl)
  obtain ⟨hfails, hfront, -, -⟩ := hexcess 5 rfl (by decide)
  have hok := hiff.2 fun m hm => Nat.le_of_eq (Option.some.inj hm)
  exact ⟨_, hused, hearlier, rfl, hok, hheld hok, hfails, hfront,
    (congrArg (·.join.toList) (hpieces _ rfl)).trans hfront⟩

end BlockList

end Sluice
