import Yfs.Client.ExtentCalls
import Yfs.Client.FileContent

/-!
# Operations on a file

`read`, `write` and `setattr` of `yfs_client`, run by one thread on a live file, whatever
the cache has of it.

Offsets are 63-bit numbers as the kernel hands them over, and the code cuts them to 32 bits in
some places and not in others; the results keep the two apart and say for which offsets it
matters.

* `Ensures.write`, `Ensures.read`, `Ensures.setattr` — what each of them does, at any offset.
* `file_content_algebra` — the content after each of them, and after any number of writes to
  disjoint ranges.
* `write_progress_exact_iff` — the count that `write` reports is exact when there is no hole.
* `full_range_offsets_iff` — offsets whose low word hides that they are past the end.
-/

namespace Yfs.Client

open Storage Storage.ExtentServer ByteBlock

variable {α β : Type}

/-- The operations one after the other. -/
def Op.progs : List Op → Prog (List Res)
  | [] => .ret []
  | op :: rest => op.prog.bind fun res => (Op.progs rest).bind fun more => .ret (res :: more)

/-! ## Specifications of the operations -/

/-- The number of bytes that `write` reports. -/
def bytesReported (content : List UInt8) (off : ℕ) (data : List UInt8) : ℕ :=
  if off % 2 ^ 32 ≤ content.length then data.length else data.length + off - content.length

/-- `write` would call `replace` with a position past the end of the string. -/
def WriteThrows (content : List UInt8) (off : ℕ) : Prop :=
  off % 2 ^ 32 ≤ content.length ∧ content.length < off

/-- `read` would call `substr` with a position past the end of the string. -/
def ReadThrows (content : List UInt8) (off : ℕ) : Prop :=
  off % 2 ^ 32 < content.length ∧ content.length < off

section Specifications

variable {post : Ending β → Alone FileMap → Prop} {s : Alone FileMap} {ino : ℕ} {c : List UInt8}

namespace Ensures

/-- **`write`**, at any offset. -/
theorem write {k : ℕ → Prog β} {off : ℕ} {data : List UInt8} (free : ino ∉ s.held)
    (here : s.content ino = some c) (throws : WriteThrows c off → ∀ s', post .exited s')
    (rest : ¬ WriteThrows c off → ∀ s', s'.held = s.held →
      s'.content ino = some (contentWritten c off data) →
      Ensures fileServer post (k (bytesReported c off data)) s') :
    Ensures fileServer post ((YfsClient.write ino off data).bind k) s := by
  simp only [YfsClient.write, Prog.bind_eq, Prog.bind_assoc]
  refine Ensures.lock free (Ensures.get_content here fun t held here => ?_)
  have done : ∀ {buf n}, ¬ WriteThrows c off → buf = contentWritten c off data →
      n = bytesReported c off data → ∀ u : Alone FileMap, u.held = t.held →
      u.content ino = some buf →
      Ensures fileServer post (k n) { u with held := u.held.erase ino } := by
    rintro buf n noThrow rfl rfl u same here
    refine rest noThrow _ ?_ here
    show u.held.erase ino = s.held
    rw [same, held]
    exact List.erase_cons_head ..
  split
  -- the offset is compared with its low word: `inside` may be wrong, and `replace` then throws
  next inside =>
      split
      next past => exact throws ⟨inside, past⟩ t
      next within =>
          simp only [Prog.bind_assoc]
          refine Ensures.put_content here fun u same here =>
            done (fun throws => within throws.2) ?_ ?_ u same here
          · rw [contentWritten, if_pos inside]
          · rw [bytesReported, if_pos inside]
  next hole =>
      simp only [Prog.bind_assoc]
      refine Ensures.put_content here fun u same here =>
        done (fun throws => hole throws.1) ?_ ?_ u same here
      · rw [contentWritten, if_neg hole]
      · rw [bytesReported, if_neg hole]

/-- **`read`**, at any offset. -/
theorem read {k : List UInt8 → Prog β} {size off : ℕ} (free : ino ∉ s.held)
    (here : s.content ino = some c) (throws : ReadThrows c off → ∀ s', post .exited s')
    (rest : ¬ ReadThrows c off → ∀ s', s'.held = s.held → s'.content ino = some c →
      Ensures fileServer post (k (bytesRead c size off)) s') :
    Ensures fileServer post ((YfsClient.read ino size off).bind k) s := by
  simp only [YfsClient.read, Prog.bind_eq, Prog.bind_assoc]
  refine Ensures.lock free (Ensures.get_content here fun t held here => Ensures.unlock ?_)
  have released : ({ t with held := t.held.erase ino }).held = s.held := by
    show t.held.erase ino = s.held
    rw [held]
    exact List.erase_cons_head ..
  have goOn := fun noThrow => rest noThrow { t with held := t.held.erase ino } released here
  split
  next past =>
      have result : bytesRead c size off = [] := if_pos past
      rw [result] at goOn
      exact goOn fun throws => absurd past (Nat.not_le.mpr throws.1)
  next inside =>
      split
      next past => exact throws ⟨by omega, past⟩ _
      next within =>
          have result : bytesRead c size off = (c.drop off).take size := if_neg inside
          rw [result] at goOn
          exact goOn fun throws => within throws.2

/-- **`setattr`.** -/
theorem setattr {k : YfsStatus → Prog β} {size : ℕ} (free : ino ∉ s.held)
    (here : s.content ino = some c)
    (rest : ∀ s', s'.held = s.held → s'.content ino = some (resize size c) →
      Ensures fileServer post (k .OK) s') :
    Ensures fileServer post ((YfsClient.setattr ino size).bind k) s := by
  simp only [YfsClient.setattr, Prog.bind_eq, Prog.bind_assoc]
  refine Ensures.lock free (Ensures.get_content here fun t held here =>
    Ensures.put_content here fun u same here => Ensures.unlock (rest _ ?_ here))
  show u.held.erase ino = s.held
  rw [same, held]
  exact List.erase_cons_head ..

/-- A sequence of writes below `2 ^ 32`. -/
theorem writes {writes : List Write} (bound : ∀ w ∈ writes, w.1 < 2 ^ 32) (free : ino ∉ s.held)
    (here : s.content ino = some c) :
    Ensures fileServer (fun out s' => (∃ results, out = .returned results) ∧ s'.held = s.held ∧
        s'.content ino = some (writes.foldl (fun c w => overwritten c w.1 w.2) c))
      (Op.progs (writes.map fun w => .write ino w.1 w.2)) s := by
  induction writes generalizing s c with
  | nil => exact ⟨⟨_, rfl⟩, rfl, here⟩
  | cons w rest ih =>
      have low := bound w List.mem_cons_self
      rw [List.map_cons, Op.progs, Op.prog, Prog.result, Prog.bind_assoc]
      refine Ensures.write free here (fun throws => ?_) fun _ t held here => ?_
      · have := throws.1
        have := throws.2
        omega
      · rw [contentWritten_eq c w.2 low] at here
        rw [Prog.ret_bind]
        refine Ensures.bind ((ih (fun v mem => bound v (List.mem_cons_of_mem _ mem))
          (by rwa [held]) here).mono ?_)
        rintro out u ⟨⟨results, rfl⟩, same, content⟩
        exact ⟨⟨_, rfl⟩, same.trans held, content⟩

end Ensures

end Specifications

/-! ## The content algebra -/

/-- **The content of a file through `write`, `read` and `setattr`**, and through any number of
writes to disjoint ranges, in any order.

What is in the cache is arbitrary, since `content` looks through it.  Disjoint writes commute as
functions on strings, and so every order of them ends with the same string. -/
theorem file_content_algebra (s : Alone FileMap) (ino : ℕ) (c : List UInt8) (free : ino ∉ s.held)
    (here : s.content ino = some c) :
    (∀ off data, off < 2 ^ 32 → Always fileServer (Op.prog (.write ino off data)) s fun out s' =>
      (∃ count, out = .returned (.written count)) ∧
        s'.content ino = some (overwritten c off data)) ∧
    (∀ size off, off < 2 ^ 32 → Always fileServer (Op.prog (.read ino size off)) s fun out s' =>
      out = .returned (.data ((c.drop off).take size)) ∧
        (c.length ≤ off → out = .returned (.data [])) ∧ s'.content ino = some c) ∧
    (∀ size, Always fileServer (Op.prog (.setattr ino size)) s fun out s' =>
      out = .returned (.status .OK) ∧ s'.content ino =
        some (c.take (min size c.length) ++ List.replicate (size - c.length) 0)) ∧
    ∀ writes : List Write, (∀ w ∈ writes, w.1 < 2 ^ 32) → writes.Pairwise Write.Apart →
      ∃ final, ∀ order : List Write, order.Perm writes →
        Always fileServer (Op.progs (order.map fun w => .write ino w.1 w.2)) s fun out s' =>
          (∃ results, out = .returned results) ∧ s'.content ino = some final := by
  refine ⟨fun off data low => ?_, fun size off low => ?_, fun size => ?_,
    fun writes low apart => ?_⟩
  · refine (Ensures.write free here (fun throws => ?_) fun _ t _ content => ?_).always
    · obtain ⟨inside, past⟩ := throws
      omega
    · rw [contentWritten_eq c data low] at content
      exact ⟨⟨_, rfl⟩, content⟩
  · refine (Ensures.read free here (fun throws => ?_) fun _ t _ content => ?_).always
    · obtain ⟨inside, past⟩ := throws
      omega
    · rw [bytesRead_eq c size low]
      refine ⟨rfl, fun past => ?_, content⟩
      rw [List.drop_eq_nil_of_le past, List.take_nil]
  · refine (Ensures.setattr free here fun t _ content => ?_).always
    refine ⟨rfl, ?_⟩
    rw [content, resize, List.take_eq_take_min]
  · refine ⟨writes.foldl (fun c w => overwritten c w.1 w.2) c, fun order perm => ?_⟩
    rw [foldl_overwritten_perm perm.symm apart c]
    refine ((Ensures.writes (fun w mem => low w (perm.subset mem)) free here).mono ?_).always
    rintro out t ⟨returned, -, content⟩
    exact ⟨returned, content⟩

/-- Two writes to the empty file, the later one past a hole, in both orders. -/
theorem file_content_algebra_empty_file :
    ∃ final, ∀ order : List Write, order.Perm [(3, [1]), (0, [2, 3])] →
    Always fileServer (Op.progs (order.map fun w => .write 2 w.1 w.2)) alone fun out s' =>
      (∃ results, out = .returned results) ∧ s'.content 2 = some final := by
  have apart : List.Pairwise Write.Apart [(3, [1]), (0, [2, 3])] := by
    simp [Write.Apart, Write.Covers]
    omega
  exact (file_content_algebra alone 2 [] (by simp [alone]) rfl).2.2.2 _ (by decide) apart

/-! ## The reported count -/

/-- A caller that writes a buffer in at most `rounds` calls of `write`, and advances by the
count that each of them reports; it returns what is left of the buffer. -/
def writeAll (ino : ℕ) : ℕ → ℕ → List UInt8 → Prog (List UInt8)
  | 0, _, data => .ret data
  | rounds + 1, off, data =>
      if data = [] then .ret []
      else (YfsClient.write ino off data).bind fun count =>
        writeAll ino rounds (off + count) (data.drop count)

/-- **`write` reports the bytes it was given**, and callers that rely on the report store their
buffer.

The caller is the loop of a program that writes a buffer: it goes on behind the bytes that were
reported, until none are left. -/
structure ReportsExactly (s : Alone FileMap) (ino : ℕ) (c : List UInt8) (off : ℕ)
    (data : List UInt8) : Prop where
  report : Always fileServer (Op.prog (.write ino off data)) s fun out _ =>
    out = .returned (.written data.length)
  caller : ∀ rounds, 0 < rounds → Always fileServer (writeAll ino rounds off data) s fun out s' =>
    out = .returned [] ∧ s'.content ino = some (overwritten c off data)

section Report

variable {s : Alone FileMap} {ino : ℕ} {c : List UInt8} {off : ℕ} {data : List UInt8}

/-- What `write` reports. -/
theorem always_reports (data : List UInt8) (free : ino ∉ s.held) (here : s.content ino = some c)
    (low : off < 2 ^ 32) : Always fileServer (Op.prog (.write ino off data)) s fun out _ =>
      out = .returned (.written (bytesReported c off data)) := by
  refine (Ensures.write free here (fun throws => ?_) fun _ t _ _ => ?_).always
  · obtain ⟨inside, past⟩ := throws
    omega
  · rfl

/-- A caller needs one call. -/
theorem writeAll_stores (free : ino ∉ s.held) (here : s.content ino = some c)
    (inside : off ≤ c.length) (low : off < 2 ^ 32) {rounds : ℕ} (some_round : 0 < rounds) :
    Always fileServer (writeAll ino rounds off data) s fun out s' =>
      out = .returned [] ∧ s'.content ino = some (overwritten c off data) := by
  obtain ⟨rounds, rfl⟩ := Nat.exists_eq_succ_of_ne_zero (Nat.ne_of_gt some_round)
  rw [writeAll]
  split
  next empty =>
      subst empty
      have same : overwritten c off [] = c := by
        simp [overwritten, padded, Nat.sub_eq_zero_of_le inside]
      rw [same]
      apply Ensures.always
      exact ⟨rfl, here⟩
  next =>
      refine (Ensures.write free here (fun throws => ?_) fun _ t held content => ?_).always
      · exact absurd inside (Nat.not_le.mpr throws.2)
      · rw [contentWritten_eq c data low] at content
        have all : data.drop (bytesReported c off data) = [] := by
          rw [bytesReported, if_pos (by omega), List.drop_length]
        rw [all]
        cases rounds with
        | zero => exact ⟨rfl, content⟩
        | succ rounds => exact ⟨rfl, content⟩

/-- **The report is exact when the write leaves no hole**, and only then. -/
theorem write_progress_exact_iff (free : ino ∉ s.held) (here : s.content ino = some c)
    (low : off < 2 ^ 32) : ReportsExactly s ino c off data ↔ off ≤ c.length := by
  constructor
  · intro exact
    obtain ⟨⟨acts, out, s', run⟩, reports⟩ := always_reports data free here low
    have one := exact.report.2 acts out s' run
    rw [reports acts out s' run, bytesReported] at one
    split at one
    next inside => omega
    next hole =>
        have count := Res.written.inj (Ending.returned.inj one)
        omega
  · intro inside
    refine ⟨?_, fun rounds some_round => writeAll_stores free here inside low some_round⟩
    have reports := always_reports data free here low
    rwa [bytesReported, if_pos (by omega)] at reports

/-- The first byte of an empty file. -/
theorem write_progress_exact_iff_empty_file : ReportsExactly alone 2 [] 0 [7] :=
  (write_progress_exact_iff (by simp [alone]) rfl (by decide)).mpr (Nat.le_refl 0)

/-- **One byte behind a hole of one byte is reported as two.** -/
theorem write_behind_hole_reports_more : ¬ ReportsExactly alone 2 [] 1 [7] := by
  intro exact
  have free : 2 ∉ alone.held := by simp [alone]
  have low : 1 < 2 ^ 32 := by decide
  obtain ⟨⟨acts, out, s', run⟩, reports⟩ := always_reports [7] free (rfl : _ = some []) low
  have two := reports acts out s' run
  rw [exact.report.2 acts out s' run] at two
  simp [bytesReported] at two

end Report

/-! ## Offsets of 64 bits -/

/-- The condition of the branch of `write` that makes a hole. -/
def TakesHoleBranch (content : List UInt8) (off : ℕ) : Prop := ¬ off % 2 ^ 32 ≤ content.length

/-- **`read` and `write` at a 64-bit offset**: neither throws, a `read` past the end returns
nothing, and a `write` makes a hole exactly when the offset is past the end.  The branch that
`write` took shows in the count it reports.

The range is that of `off_t`, a signed type of 64 bits. -/
structure FullRange (s : Alone FileMap) (ino : ℕ) (c : List UInt8) (off : ℕ) : Prop where
  read : ∀ size, off + size < 2 ^ 63 → Always fileServer (Op.prog (.read ino size off)) s
    fun out _ => (∃ bytes, out = .returned (.data bytes)) ∧
      (c.length ≤ off → out = .returned (.data []))
  write : ∀ data, off + data.length < 2 ^ 63 → Always fileServer (Op.prog (.write ino off data)) s
    fun out _ => out = .returned (.written
      (if c.length < off then data.length + off - c.length else data.length))
  hole : TakesHoleBranch c off ↔ c.length < off

section FullRange

variable {s : Alone FileMap} {ino : ℕ} {c : List UInt8} {off : ℕ}

/-- A write whose offset looks as if it were inside the string ends the process. -/
theorem always_exits (data : List UInt8) (free : ino ∉ s.held) (here : s.content ino = some c)
    (throws : WriteThrows c off) :
    Always fileServer (Op.prog (.write ino off data)) s fun out _ => out = .exited :=
  (Ensures.write free here (fun _ _ => rfl) fun noThrow => absurd throws noThrow).always

/-- **Offsets are handled exactly when their low word tells that they are past the end.**

The code compares the low word of the offset with the size.  If both are on the same side of the
size nothing goes wrong, and otherwise `substr` or `replace` gets an offset past the end. -/
theorem full_range_offsets_iff (free : ino ∉ s.held) (here : s.content ino = some c)
    (range : off < 2 ^ 63) :
    FullRange s ino c off ↔ (c.length < off → c.length < off % 2 ^ 32) := by
  constructor
  · intro full past
    by_contra looksInside
    -- the low word is inside, the offset is not
    have throws : WriteThrows c off := ⟨Nat.not_lt.mp looksInside, past⟩
    obtain ⟨⟨acts, out, s', run⟩, exits⟩ := always_exits [] free here throws
    have returned := (full.write [] range).2 acts out s' run
    rw [exits acts out s' run] at returned
    cases returned
  · intro low
    refine ⟨fun size _ => ?_, fun data _ => ?_, fun hole => ?_, fun past => ?_⟩
    · refine (Ensures.read free here (fun throws => ?_) fun _ t _ _ => ?_).always
      · exact absurd (low throws.2) (Nat.not_lt.mpr (Nat.le_of_lt throws.1))
      · refine ⟨⟨_, rfl⟩, fun past => ?_⟩
        have empty : bytesRead c size off = [] := by
          rw [bytesRead, List.drop_eq_nil_of_le past, List.take_nil, ite_self]
        rw [empty]
    · refine (Ensures.write free here (fun throws => ?_) fun _ t _ _ => ?_).always
      · exact absurd (low throws.2) (Nat.not_lt.mpr throws.1)
      · have count : bytesReported c off data =
            if c.length < off then data.length + off - c.length else data.length := by
          have := Nat.mod_le off (2 ^ 32)
          by_cases past : c.length < off
          · rw [bytesReported, if_neg (Nat.not_le.mpr (low past)), if_pos past]
          · rw [bytesReported, if_pos (by omega), if_neg past]
        rw [count]
        rfl
    · have := Nat.mod_le off (2 ^ 32)
      have := Nat.not_le.mp hole
      omega
    · exact Nat.not_le.mpr (low past)

/-- Any offset below `2 ^ 32` is handled. -/
theorem full_range_offsets_iff_empty_file : FullRange alone 2 [] 5 :=
  (full_range_offsets_iff (by simp [alone]) rfl (by decide)).mpr (by decide)

/-- **At offset `2 ^ 32` an empty file takes the process down.** -/
theorem write_past_low_word_exits : ¬ FullRange alone 2 [] (2 ^ 32) := by
  intro full
  have free : 2 ∉ alone.held := by simp [alone]
  have throws : WriteThrows [] (2 ^ 32) := ⟨by decide, by decide⟩
  obtain ⟨⟨acts, out, s', run⟩, exits⟩ := always_exits [7] free rfl throws
  have returned := (full.write [7] (by decide)).2 acts out s' run
  rw [exits acts out s' run] at returned
  cases returned

end FullRange

end Yfs.Client
