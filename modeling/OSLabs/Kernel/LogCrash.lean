/-
  Crashes.

  At each moment the disk can be recovered to what the committed writes have made
  of it (`Recoverable`): while there is no header on the disk the home blocks hold
  it, and once there is one, the home blocks together with the log do.  `Phase`
  says so for each point of commit.  So after a crash, and after any number of
  crashes during recovery, the home blocks hold all writes of the operations that
  were committed, and none of the others (`crash_atomic`).
-/
import OSLabs.Kernel.LogControl

namespace OSLabs.Log

open Monitor RedoLog

variable {L : Layout} {T : Type} {t : T} {q q' : Point} {m m' : Mem T}
  {b : UInt32} {d₀ d s : Disk}

/-! ## The layout of the log -/

theorem start_inLog (L : Layout) : L.InLog L.start := by
  simpa [Layout.InLog] using L.pos

theorem slot_sub {i : ℕ} (hi : i < 30) : (L.slot i - L.start).toNat = i + 1 := by
  have := L.start.toNat_lt
  simp only [Layout.slot, UInt32.toNat_sub, UInt32.toNat_add, UInt32.toNat_one,
    UInt32.toNat_ofNat']
  omega

theorem slot_inLog {i : ℕ} (hi : i < 30) (hs : i + 1 < L.size) : L.InLog (L.slot i) := by
  rw [Layout.InLog, slot_sub hi]; exact hs

theorem slot_ne_start {i : ℕ} (hi : i < 30) : L.slot i ≠ L.start := by
  intro heq
  have := slot_sub (L := L) hi
  rw [heq] at this
  simp at this

theorem slot_ne_slot {i j : ℕ} (hi : i < 30) (hj : j < 30) (hij : i ≠ j) : L.slot i ≠ L.slot j := by
  intro heq
  have h₁ := slot_sub (L := L) hi
  have h₂ := slot_sub (L := L) hj
  rw [heq] at h₁
  omega

/-- The home of a block is no slot. -/
theorem apart {lh : List UInt32} {n : ℕ} (h : ∀ b ∈ lh, ¬ L.InLog b) (hn : n ≤ 30)
    (hs : n < L.size) : Apart L.slot lh n := by
  intro b hb j hj heq
  exact h b hb (heq ▸ slot_inLog (by omega) (by omega))

/-- **The header is read as it was written.** -/
theorem readHead_setHead (b : Block) {lh : List UInt32} (h : lh.length ≤ 30) :
    readHead (setHead b lh) = lh := by
  have hlen : (setHead b lh 0).toNat = lh.length := by
    simp only [setHead, Fin.coe_ofNat_eq_mod, Nat.zero_mod, if_true, UInt32.toNat_ofNat']
    omega
  refine List.ext_getElem (by simp [readHead, hlen]) fun i h₁ h₂ => ?_
  have hi : (i + 1) % 256 = i + 1 := Nat.mod_eq_of_lt (by omega)
  simp [readHead, setHead, hi, List.getElem?_eq_getElem h₂]

/-! ## What can be recovered -/

/-- The disk can be recovered to `s`. -/
structure Recoverable (L : Layout) (s d : Disk) : Prop where
  logged : Logged L.slot (readHead (d L.start)) s d
  homes : ∀ b ∈ readHead (d L.start), ¬ L.InLog b
  length : (readHead (d L.start)).length ≤ 30 ∧ (readHead (d L.start)).length < L.size
  home : ∀ b, ¬ L.InLog b → b ∈ readHead (d L.start) ∨ d b = s b

theorem Recoverable.apart (h : Recoverable L s d) :
    Apart L.slot (readHead (d L.start)) (readHead (d L.start)).length :=
  Log.apart h.homes h.length.1 h.length.2

/-- **Recovery gives the blocks that were to be recovered**, and an empty log. -/
theorem Recoverable.recover (h : Recoverable L s d) :
    (∀ b, ¬ L.InLog b → recover L d b = s b) ∧ readHead (recover L d L.start) = [] := by
  constructor
  · intro b hb
    have hne : b ≠ L.start := by
      rintro rfl; exact hb (start_inLog L)
    rw [Log.recover, clearHead, Function.update_of_ne hne]
    exact install_eq h.logged h.apart (Nat.le_refl _) (h.home b hb)
  · rw [Log.recover, clearHead, Function.update_self]
    exact readHead_setHead _ (Nat.zero_le _)

/-- **A crash during recovery does no harm.** -/
theorem Recoverable.recoverTake (h : Recoverable L s d) (k : ℕ) :
    Recoverable L s (recoverTake L k d) := by
  unfold Log.recoverTake
  split_ifs with hk
  · -- the header is still there
    have hstart : L.start ∉ readHead (d L.start) := fun hm => h.homes _ hm (start_inLog L)
    have hhead : RedoLog.install L.slot ((readHead (d L.start)).take k) 0 d L.start = d L.start :=
      install_take_notMem hstart k
    constructor
    · rw [hhead]; exact h.logged.install_take h.apart (Nat.le_refl _) k
    · rw [hhead]; exact h.homes
    · rw [hhead]; exact h.length
    · intro b hb
      rw [hhead]
      refine (em (b ∈ readHead (d L.start))).imp_right fun hm => ?_
      rw [install_take_notMem hm]
      exact (h.home b hb).resolve_left hm
  · obtain ⟨hhome, hhead⟩ := h.recover
    constructor
    · rw [hhead]; intro j b hb; cases hb
    · rw [hhead]; intro b hb; cases hb
    · rw [hhead]; exact ⟨Nat.zero_le _, L.pos⟩
    · intro b hb; exact .inr (hhome b hb)

/-! ## The invariant of the data -/

/-- What all writes make of the disk `d₀`. -/
def Mem.content (m : Mem T) (d₀ : Disk) : Disk := replay d₀ (m.hist.map Write.effect)

/-- What the committed writes make of it. -/
def Mem.durable (m : Mem T) (d₀ : Disk) : Disk :=
  replay d₀ ((m.hist.take m.committed).map Write.effect)

/-- What holds of the buffer cache and of the log header in memory. -/
structure Data (L : Layout) (d₀ : Disk) (m : Mem T) : Prop where
  cache : ∀ b, ¬ L.InLog b → m.cache b = m.content d₀ b
  log : ∀ b, L.InLog b → m.cache b = m.disk b
  homes : ∀ b ∈ m.lh, ¬ L.InLog b
  length : m.lh.length ≤ 30 ∧ m.lh.length < L.size
  nodup : m.lh.Nodup
  committed : m.committed ≤ m.hist.length
  unlogged : ∀ w ∈ m.hist.drop m.committed, w.block ∈ m.lh ∨ ∃ t, m.buf t = some w.block

/-- The process holds a buffer that it has changed at these points. -/
def Point.holds : Point → Bool
  | .logWrite _ => true
  | .logTest _ => true
  | .logRelease => true
  | .brelse => true
  | .panic => true
  | _ => false

/-- The buffers that processes hold on their way to log_write and back. -/
structure Bufs (L : Layout) (m : Mem T) (pc : T → Point) : Prop where
  writing : ∀ t b, pc t = .logWrite b ∨ pc t = .logTest b → m.buf t = some b ∧ ¬ L.InLog b
  holding : ∀ t b, m.buf t = some b → (pc t).holds = true
  logged : ∀ t b, m.buf t = some b → pc t = .logRelease ∨ pc t = .brelse → b ∈ m.lh

/-- The disk has no log: the home blocks hold what is committed, and the buffers of
    the log are pinned. -/
structure Idle (L : Layout) (d₀ : Disk) (m : Mem T) : Prop where
  head : readHead (m.disk L.start) = []
  home : ∀ b, ¬ L.InLog b → m.disk b = m.durable d₀ b
  pinned : ∀ b ∈ m.lh, m.pins b ≠ 0

/-- The disk has a log, of which the first `n` blocks have been installed. -/
structure Installing (L : Layout) (m : Mem T) (n : ℕ) : Prop where
  head : readHead (m.disk L.start) = m.lh
  logged : Logged L.slot m.lh m.cache m.disk
  committed : m.committed = m.hist.length
  pinned : ∀ b ∈ m.lh.drop n, m.pins b ≠ 0
  home : ∀ b, ¬ L.InLog b → b ∉ m.lh.drop n → m.disk b = m.cache b

/-- The disk has a log that is installed. -/
structure Installed (L : Layout) (m : Mem T) : Prop where
  recoverable : Recoverable L m.cache m.disk
  committed : m.committed = m.hist.length
  home : ∀ b, ¬ L.InLog b → m.disk b = m.cache b

/-- **The state of the disk at each point of commit.** -/
def Phase (L : Layout) (d₀ : Disk) (m : Mem T) : Point → Prop
  | .writeLog tail =>
    Idle L d₀ m ∧ ∀ j < tail, ∀ b, m.lh[j]? = some b → m.disk (L.slot j) = m.cache b
  | .writeHead => Idle L d₀ m ∧ Logged L.slot m.lh m.cache m.disk
  | .install tail => Installing L m tail
  | .erase => Installing L m m.lh.length
  | .eraseHead => Installed L m
  | _ => Idle L d₀ m

theorem content_eq_durable (h : Data L d₀ m) (hb : b ∉ m.lh) (hbuf : ∀ t, m.buf t ≠ some b) :
    m.content d₀ b = m.durable d₀ b := by
  have hhist : m.hist.map Write.effect = (m.hist.take m.committed).map Write.effect ++
      (m.hist.drop m.committed).map Write.effect := by
    rw [← List.map_append, List.take_append_drop]
  rw [Mem.content, Mem.durable, hhist, replay_append]
  refine replay_of_notMem (fun w hw => ?_) _
  obtain ⟨w', hw', rfl⟩ := List.mem_map.1 hw
  rintro rfl
  rcases h.unlogged w' hw' with hm | ⟨t, ht⟩
  · exact hb hm
  · exact hbuf t ht

theorem durable_eq_content (hc : m.committed = m.hist.length) : m.durable d₀ = m.content d₀ := by
  rw [Mem.durable, Mem.content, hc, List.take_length]

/-- **In each phase the disk can be recovered.** -/
theorem Phase.recoverable (hd : Data L d₀ m) (h : Phase L d₀ m q) :
    Recoverable L (m.durable d₀) m.disk := by
  have hidle : Idle L d₀ m → Recoverable L (m.durable d₀) m.disk := by
    intro hi
    constructor
    · rw [hi.head]; intro j b hb; cases hb
    · rw [hi.head]; intro b hb; cases hb
    · rw [hi.head]; exact ⟨Nat.zero_le _, L.pos⟩
    · intro b hb; exact .inr (hi.home b hb)
  have hinstalling : ∀ n, Installing L m n → Recoverable L (m.durable d₀) m.disk := by
    intro n hi
    rw [durable_eq_content hi.committed]
    constructor
    · rw [hi.head]
      intro j b hb
      rw [hi.logged j b hb, hd.cache b (hd.homes b (List.mem_of_getElem? hb))]
    · rw [hi.head]; exact hd.homes
    · rw [hi.head]; exact hd.length
    · intro b hb
      rw [hi.head]
      refine (em (b ∈ m.lh)).imp_right fun hm => ?_
      rw [hi.home b hb fun hm' => hm (List.mem_of_mem_drop hm'), hd.cache b hb]
  cases q with
  | writeLog tail => exact hidle h.1
  | writeHead => exact hidle h.1
  | install tail => exact hinstalling tail h
  | erase => exact hinstalling _ h
  | eraseHead =>
    obtain ⟨hr, hc, hhome⟩ := h
    rw [durable_eq_content hc]
    refine ⟨fun j b hb => ?_, hr.homes, hr.length, fun b hb => .inr ?_⟩
    · rw [hr.logged j b hb, hd.cache b (hr.homes b (List.mem_of_getElem? hb))]
    · rw [hhome b hb, hd.cache b hb]
  | _ => exact hidle h

/-- A buffer that is recycled holds what the disk holds. -/
theorem Phase.evict (hd : Data L d₀ m) (h : Phase L d₀ m q) (hpins : m.pins b = 0)
    (hbuf : ∀ t, m.buf t ≠ some b) : m.evict b = m := by
  have hcache : m.disk b = m.cache b → m.evict b = m := by
    intro he; rw [Mem.evict, he, Function.update_eq_self]
  by_cases hb : L.InLog b
  · exact hcache (hd.log b hb).symm
  have hidle : Idle L d₀ m → m.disk b = m.cache b := by
    intro hi
    have hlh : b ∉ m.lh := fun hm => hi.pinned b hm hpins
    rw [hi.home b hb, hd.cache b hb, content_eq_durable hd hlh hbuf]
  have hinstalling : ∀ n, Installing L m n → m.disk b = m.cache b := fun n hi =>
    hi.home b hb fun hm => hi.pinned b hm hpins
  cases q with
  | writeLog tail => exact hcache (hidle h.1)
  | writeHead => exact hcache (hidle h.1)
  | install tail => exact hcache (hinstalling tail h)
  | erase => exact hcache (hinstalling _ h)
  | eraseHead => exact hcache (h.home b hb)
  | _ => exact hcache (hidle h)

/-! ## One step of commit -/

section
variable {tail : ℕ}

/-- A block of the log is written. -/
theorem Data.bwrite (h : Data L d₀ m) (hb : L.InLog b) (v : Block) :
    Data L d₀ (m.bwrite b v) := by
  constructor
  · intro c hc
    have hne : c ≠ b := by
      rintro rfl; exact hc hb
    exact (Function.update_of_ne hne ..).trans (h.cache c hc)
  · intro c hc
    simp only [Mem.bwrite, Function.update_apply]
    split_ifs
    · rfl
    · exact h.log c hc
  · exact h.homes
  · exact h.length
  · exact h.nodup
  · exact h.committed
  · exact h.unlogged

theorem Idle.bwrite (h : Idle L d₀ m) (hb : L.InLog b) (hne : b ≠ L.start) (v : Block) :
    Idle L d₀ (m.bwrite b v) := by
  constructor
  · simp only [Mem.bwrite, Function.update_of_ne (Ne.symm hne)]; exact h.head
  · intro c hc
    have hcb : c ≠ b := by
      rintro rfl; exact hc hb
    exact (Function.update_of_ne hcb ..).trans (h.home c hc)
  · exact h.pinned

/-- write_log copies a block. -/
theorem Phase.writeLog (hd : Data L d₀ m) (h : Phase L d₀ m (.writeLog tail))
    (hb : m.lh[tail]? = some b) :
    Data L d₀ (m.bwrite (L.slot tail) (m.cache b)) ∧
      Phase L d₀ (m.bwrite (L.slot tail) (m.cache b)) (.writeLog (tail + 1)) := by
  obtain ⟨hi, hlog⟩ := h
  obtain ⟨hlen, hsize⟩ := hd.length
  have htail := (List.getElem?_eq_some_iff.1 hb).1
  have hin : L.InLog (L.slot tail) := slot_inLog (by omega) (by omega)
  refine ⟨hd.bwrite hin _, hi.bwrite hin (slot_ne_start (by omega)) _, fun j hj c hc => ?_⟩
  have hclen := (List.getElem?_eq_some_iff.1 hc).1
  have hcne : c ≠ L.slot tail := by
    rintro rfl; exact hd.homes _ (List.mem_of_getElem? hc) hin
  simp only [Mem.bwrite, Function.update_of_ne hcne]
  by_cases hjt : j = tail
  · subst hjt
    obtain rfl : b = c := Option.some.inj (hb.symm.trans hc)
    rw [Function.update_self]
  · rw [Function.update_of_ne (slot_ne_slot (by omega) (by omega) hjt)]
    exact hlog j (by omega) c hc

theorem Phase.writeLogEnd (h : Phase L d₀ m (.writeLog tail)) (hb : m.lh[tail]? = none) :
    Phase L d₀ m .writeHead := by
  refine ⟨h.1, fun j c hc => h.2 j ?_ c hc⟩
  have := (List.getElem?_eq_some_iff.1 hc).1
  have := List.getElem?_eq_none_iff.1 hb
  omega

/-- **The commit**: write_head writes the header. -/
theorem Phase.writeHead (hd : Data L d₀ m) (hbuf : ∀ t, m.buf t = none)
    (h : Phase L d₀ m .writeHead) :
    Data L d₀ (m.writeHead L).commit ∧ Phase L d₀ (m.writeHead L).commit (.install 0) := by
  obtain ⟨hi, hlog⟩ := h
  have hd' := hd.bwrite (start_inLog L) (setHead (m.cache L.start) m.lh)
  refine ⟨⟨hd'.cache, hd'.log, hd.homes, hd.length, hd.nodup, Nat.le_refl _, ?_⟩, ?_⟩
  · intro w hw
    simp [Mem.commit] at hw
  have hne : ∀ c, ¬ L.InLog c → c ≠ L.start := by
    rintro c hc rfl; exact hc (start_inLog L)
  constructor
  · simp only [Mem.commit, Mem.writeHead, Mem.bwrite, Function.update_self]
    exact readHead_setHead _ hd.length.1
  · intro j c hc
    have hclen : j < m.lh.length := (List.getElem?_eq_some_iff.1 hc).1
    have := hd.length.1
    simp only [Mem.commit, Mem.writeHead, Mem.bwrite]
    rw [Function.update_of_ne (slot_ne_start (by omega)),
      Function.update_of_ne (hne c (hd.homes c (List.mem_of_getElem? hc)))]
    exact hlog j c hc
  · rfl
  · exact hi.pinned
  · intro c hc hm
    have hcont := content_eq_durable (b := c) hd hm fun t => by rw [hbuf]; simp
    simp only [Mem.commit, Mem.writeHead, Mem.bwrite]
    rw [Function.update_of_ne (hne c hc), Function.update_of_ne (hne c hc), hi.home c hc,
      hd.cache c hc, hcont]

/-- install_trans(0) copies a block. -/
theorem Phase.install (hd : Data L d₀ m) (h : Phase L d₀ m (.install tail))
    (hb : m.lh[tail]? = some b) :
    Data L d₀ ((m.bwrite b (m.cache (L.slot tail))).bunpin b) ∧
      Phase L d₀ ((m.bwrite b (m.cache (L.slot tail))).bunpin b) (.install (tail + 1)) := by
  obtain ⟨hlen, hsize⟩ := hd.length
  have htail := (List.getElem?_eq_some_iff.1 hb).1
  have hbh : ¬ L.InLog b := hd.homes b (List.mem_of_getElem? hb)
  have hslot : ∀ j < m.lh.length, L.slot j ≠ b := by
    rintro j hj rfl
    exact hbh (slot_inLog (by omega) (by omega))
  have hval : m.cache (L.slot tail) = m.cache b := by
    rw [hd.log _ (slot_inLog (by omega) (by omega)), h.logged tail b hb]
  have hcache : Function.update m.cache b (m.cache b) = m.cache := Function.update_eq_self ..
  have hdrop : m.lh.drop tail = b :: m.lh.drop (tail + 1) := by
    rw [List.drop_eq_getElem_cons htail, (List.getElem?_eq_some_iff.1 hb).2]
  rw [hval]
  constructor
  · constructor
    · intro c hc; simp only [Mem.bunpin, Mem.bwrite, hcache]; exact hd.cache c hc
    · intro c hc
      have hne : c ≠ b := by
        rintro rfl; exact hbh hc
      simp only [Mem.bunpin, Mem.bwrite, Function.update_of_ne hne]
      exact hd.log c hc
    · exact hd.homes
    · exact hd.length
    · exact hd.nodup
    · exact hd.committed
    · exact hd.unlogged
  constructor
  · have hne : L.start ≠ b := by
      rintro rfl; exact hbh (start_inLog L)
    simp only [Mem.bunpin, Mem.bwrite, Function.update_of_ne hne]
    exact h.head
  · intro j c hc
    have hj := (List.getElem?_eq_some_iff.1 hc).1
    simp only [Mem.bunpin, Mem.bwrite, hcache, Function.update_of_ne (hslot j hj)]
    exact h.logged j c hc
  · exact h.committed
  · intro c hc
    have hnd : b ∉ m.lh.drop (tail + 1) := by
      have := hd.nodup.sublist (List.drop_sublist tail m.lh)
      rw [hdrop] at this
      exact (List.nodup_cons.1 this).1
    have hne : c ≠ b := by
      rintro rfl; exact hnd hc
    simp only [Mem.bunpin, Mem.bwrite, Function.update_of_ne hne]
    exact h.pinned c (by rw [hdrop]; exact List.mem_cons_of_mem _ hc)
  · intro c hc hm
    simp only [Mem.bunpin, Mem.bwrite, hcache, Function.update_apply]
    split_ifs with hcb
    · rw [hcb]
    · refine h.home c hc fun hm' => ?_
      rw [hdrop] at hm'
      exact (List.mem_cons.1 hm').elim hcb hm

theorem Phase.installEnd (h : Phase L d₀ m (.install tail)) (hb : m.lh[tail]? = none) :
    Phase L d₀ m .erase := by
  have hlen := List.getElem?_eq_none_iff.1 hb
  have hdrop : m.lh.drop m.lh.length = m.lh.drop tail := by
    rw [List.drop_eq_nil_of_le hlen, List.drop_length]
  exact ⟨h.head, h.logged, h.committed, by rw [hdrop]; exact h.pinned, by rw [hdrop]; exact h.home⟩

theorem Phase.erase (hd : Data L d₀ m) (h : Phase L d₀ m .erase) :
    Data L d₀ m.clear ∧ Phase L d₀ m.clear .eraseHead := by
  have hhome : ∀ b, ¬ L.InLog b → m.disk b = m.cache b := fun b hb =>
    h.home b hb (by simp)
  refine ⟨⟨hd.cache, hd.log, List.forall_mem_nil _, ⟨Nat.zero_le _, L.pos⟩, List.nodup_nil,
    hd.committed, fun w hw => ?_⟩, ⟨?_, ?_, ?_, fun b hb => .inr (hhome b hb)⟩, h.committed, hhome⟩
  · simp [Mem.clear, h.committed] at hw
  · simp only [Mem.clear, h.head]; exact h.logged
  · simp only [Mem.clear, h.head]; exact hd.homes
  · simp only [Mem.clear, h.head]; exact hd.length

/-- write_head erases the transaction from the log. -/
theorem Phase.eraseHead (hd : Data L d₀ m) (hlh : m.lh = []) (h : Phase L d₀ m .eraseHead) :
    Data L d₀ (m.writeHead L) ∧ Phase L d₀ (m.writeHead L) .commitAcquire := by
  refine ⟨hd.bwrite (start_inLog L) _, ?_, ?_, ?_⟩
  · simp only [Mem.writeHead, Mem.bwrite, Function.update_self, hlh]
    exact readHead_setHead _ (Nat.zero_le _)
  · intro c hc
    have hne : c ≠ L.start := by
      rintro rfl; exact hc (start_inLog L)
    have hcont : (m.writeHead L).durable d₀ = m.content d₀ := durable_eq_content h.committed
    rw [hcont, ← hd.cache c hc]
    simp only [Mem.writeHead, Mem.bwrite, Function.update_of_ne hne]
    exact h.home c hc
  · simp only [Mem.writeHead, Mem.bwrite, hlh]; exact List.forall_mem_nil _

end

/-! ## One step of an operation -/

variable [DecidableEq T]

/-- An operation changes a buffer. -/
theorem Data.change (h : Data L d₀ m) (hbuf : m.buf t = none) (hb : ¬ L.InLog b) (id : ℕ)
    (v : Block) : Data L d₀ (m.change t id b v) := by
  have hcontent : (m.change t id b v).content d₀ = Function.update (m.content d₀) b v := by
    simp only [Mem.content, Mem.change, List.map_append, List.map_cons, List.map_nil,
      Write.effect, replay_concat]
  constructor
  · intro c hc
    rw [hcontent]
    simp only [Mem.change, Function.update_apply]
    split_ifs
    · rfl
    · exact h.cache c hc
  · intro c hc
    have hne : c ≠ b := by
      rintro rfl; exact hb hc
    exact (Function.update_of_ne hne ..).trans (h.log c hc)
  · exact h.homes
  · exact h.length
  · exact h.nodup
  · simp only [Mem.change, List.length_append, List.length_singleton]
    exact Nat.le_succ_of_le h.committed
  · intro w hw
    simp only [Mem.change, List.drop_append_of_le_length h.committed] at hw
    rcases List.mem_append.1 hw with hw | hw
    · refine (h.unlogged w hw).imp_right fun ⟨t', ht'⟩ => ⟨t', ?_⟩
      have hne : t' ≠ t := by
        rintro rfl; rw [hbuf] at ht'; cases ht'
      simpa [Mem.change, hne] using ht'
    · obtain rfl := List.mem_singleton.1 hw
      exact .inr ⟨t, Function.update_self ..⟩

theorem Idle.change (h : Idle L d₀ m) (hc : m.committed ≤ m.hist.length) (id : ℕ) (v : Block) :
    Idle L d₀ (m.change t id b v) := by
  refine ⟨h.head, fun c hcb => ?_, h.pinned⟩
  have hdur : (m.change t id b v).durable d₀ = m.durable d₀ := by
    simp only [Mem.durable, Mem.change, List.take_append_of_le_length hc]
  rw [hdur]; exact h.home c hcb

/-- log_write puts a block into the log. -/
theorem Data.logged (h : Data L d₀ m) (hb : ¬ L.InLog b) (hlen : m.lh.length < 30)
    (hsize : m.lh.length < L.size - 1) : Data L d₀ (m.log t b) := by
  unfold Mem.log
  split_ifs with hm
  · exact h
  · refine ⟨h.cache, h.log, fun c hc => ?_, ?_, ?_, h.committed, fun w hw => ?_⟩
    · rcases List.mem_append.1 hc with hc | hc
      · exact h.homes c hc
      · obtain rfl := List.mem_singleton.1 hc; exact hb
    · simp only [List.length_append, List.length_singleton]; omega
    · rw [List.nodup_append]
      refine ⟨h.nodup, List.nodup_singleton _, fun x hx y hy => ?_⟩
      obtain rfl := List.mem_singleton.1 hy
      rintro rfl; exact hm hx
    · exact (h.unlogged w hw).imp_left fun hw => List.mem_append_left _ hw

theorem Idle.logged (h : Idle L d₀ m) : Idle L d₀ (m.log t b) := by
  unfold Mem.log
  split_ifs with hm
  · exact h
  · refine ⟨h.head, h.home, fun c hc => ?_⟩
    simp only [Function.update_apply]
    split_ifs with hcb
    · omega
    · refine h.pinned c ?_
      exact (List.mem_append.1 hc).resolve_right fun hc => hcb (List.mem_singleton.1 hc)

theorem mem_log (m : Mem T) (t : T) (b : UInt32) : b ∈ (m.log t b).lh := by
  unfold Mem.log
  split_ifs with hm
  · exact hm
  · exact List.mem_append_right _ (List.mem_singleton_self _)

/-- The process releases a buffer that is in the log. -/
theorem Data.brelse (h : Data L d₀ m) (hb : ∀ b, m.buf t = some b → b ∈ m.lh) :
    Data L d₀ (m.brelse t) := by
  refine ⟨h.cache, h.log, h.homes, h.length, h.nodup, h.committed, fun w hw => ?_⟩
  rcases h.unlogged w hw with hm | ⟨t', ht'⟩
  · exact .inl hm
  · by_cases htt : t' = t
    · subst htt; exact .inl (hb _ ht')
    · exact .inr ⟨t', (Function.update_of_ne htt ..).trans ht'⟩

/-! ## Any step -/

section
variable {pc : T → Point}

/-- **The invariant of the disk.** -/
structure Good (L : Layout) (d₀ : Disk) (m : Mem T) (pc : T → Point) : Prop where
  data : Data L d₀ m
  bufs : Bufs L m pc
  idle : m.committing = false → Idle L d₀ m
  phase : ∀ t, (pc t).commits = true → Phase L d₀ m (pc t)

theorem Point.inOp_of_holds (h : q.holds = true) : q.inOp = true := by
  cases q <;> first | rfl | cases h

omit [DecidableEq T] in
theorem Bufs.none_of (h : Bufs L m pc) (hq : (pc t).holds = false) : m.buf t = none := by
  cases hb : m.buf t with
  | none => rfl
  | some b => rw [h.holding t b hb] at hq; cases hq

omit [DecidableEq T] in
/-- While a process commits, no process holds a buffer that it has changed. -/
theorem Bufs.none_of_committing [Fintype T] (h : Bufs L m pc) (hC : Control m pc)
    (hc : m.committing = true) (t : T) : m.buf t = none := by
  refine h.none_of ?_
  by_contra hq
  exact hC.inOp t (Point.inOp_of_holds (by simpa using hq)) (hC.op_eq_none hc t)

/-- What a process shows about buffers that moves on to `q'`. -/
theorem Bufs.move (h : Bufs L m pc) (hother : ∀ t' ≠ t, m'.buf t' = m.buf t')
    (hlh : ∀ t' ≠ t, ∀ b, m.buf t' = some b → b ∈ m.lh → b ∈ m'.lh)
    (hwriting : ∀ b, q' = .logWrite b ∨ q' = .logTest b → m'.buf t = some b ∧ ¬ L.InLog b)
    (hholding : ∀ b, m'.buf t = some b → q'.holds = true)
    (hlogged : ∀ b, m'.buf t = some b → q' = .logRelease ∨ q' = .brelse → b ∈ m'.lh) :
    Bufs L m' (Function.update pc t q') := by
  refine ⟨fun t' b hq => ?_, fun t' b hb => ?_, fun t' b hb hq => ?_⟩ <;> by_cases htt : t' = t
  · subst htt; rw [Function.update_self] at hq; exact hwriting b hq
  · rw [Function.update_of_ne htt] at hq; rw [hother t' htt]; exact h.writing t' b hq
  · subst htt; rw [Function.update_self]; exact hholding b hb
  · rw [Function.update_of_ne htt]; rw [hother t' htt] at hb; exact h.holding t' b hb
  · subst htt; rw [Function.update_self] at hq; exact hlogged b hb hq
  · rw [Function.update_of_ne htt] at hq; rw [hother t' htt] at hb
    exact hlh t' htt b hb (h.logged t' b hb hq)

/-- The process moves on without a buffer. -/
theorem Bufs.pass (h : Bufs L m pc) (hbuf : m'.buf = m.buf) (hq : (pc t).holds = false)
    (hlh : ∀ t' ≠ t, ∀ b, m.buf t' = some b → b ∈ m.lh → b ∈ m'.lh)
    (hq' : q'.holds = false) : Bufs L m' (Function.update pc t q') := by
  have hnone := h.none_of hq
  refine h.move (fun t' _ => by rw [hbuf]) hlh (fun b hb => ?_) (fun b hb => ?_) fun b hb => ?_
  · rcases hb with rfl | rfl <;> cases hq'
  · rw [hbuf, hnone] at hb; cases hb
  · rw [hbuf, hnone] at hb; cases hb

theorem Good.move (hd : Data L d₀ m') (hb : Bufs L m' (Function.update pc t q'))
    (hidle : m'.committing = false → Idle L d₀ m') (hself : q'.commits = true → Phase L d₀ m' q')
    (hother : ∀ t' ≠ t, (pc t').commits = true → Phase L d₀ m' (pc t')) :
    Good L d₀ m' (Function.update pc t q') := by
  refine ⟨hd, hb, hidle, fun t' hc => ?_⟩
  by_cases htt : t' = t
  · subst htt
    rw [Function.update_self] at hc ⊢
    exact hself hc
  · rw [Function.update_of_ne htt] at hc ⊢
    exact hother t' htt hc

variable [Fintype T]

omit [Fintype T] in
/-- A process outside commit moves on, and changes nothing that matters to the
    disk. -/
theorem Good.stay (h : Good L d₀ m pc) (hq : (pc t).holds = false) (hq' : q'.holds = false)
    (hc : q'.commits = false) : Good L d₀ m (Function.update pc t q') :=
  Good.move h.data (h.bufs.pass rfl hq (fun _ _ _ _ hm => hm) hq') h.idle
    (fun hc' => by rw [hc] at hc'; cases hc') fun t' _ => h.phase t'

/-- An operation moves on: no process commits. -/
theorem Good.operate (hC : Control m pc) (hc : m.committing = false) (hd : Data L d₀ m')
    (hb : Bufs L m' (Function.update pc t q')) (hi : Idle L d₀ m')
    (hself : q'.commits = true → Phase L d₀ m' q') :
    Good L d₀ m' (Function.update pc t q') :=
  Good.move hd hb (fun _ => hi) hself fun t' _ hc' => by
    rw [hC.commits t' hc'] at hc; cases hc

/-- The process that commits moves on. -/
theorem Good.advance (h : Good L d₀ m pc) (hC : Control m pc) (hq : (pc t).commits = true)
    (hd : Data L d₀ m') (hbuf : m'.buf = m.buf) (hcom : m'.committing = true)
    (hq' : q'.holds = false) (hself : Phase L d₀ m' q') :
    Good L d₀ m' (Function.update pc t q') := by
  have hc := hC.commits t hq
  have hnone := h.bufs.none_of_committing hC hc
  have hholds : (pc t).holds = false := by
    generalize pc t = q at hq
    cases q <;> first | rfl | cases hq
  refine Good.move hd (h.bufs.pass hbuf hholds (fun t' _ b hb => ?_) hq') (fun hf => ?_)
    (fun _ => hself) fun t' htt hc' => absurd (hC.unique t' t hc' hq) htt
  · rw [hnone] at hb; cases hb
  · rw [hcom] at hf; cases hf

/-- **A run keeps the invariant of the disk.** -/
theorem Runs.good (hr : Runs L t m q m' q') (hpc : pc t = q) (hC : Control m pc)
    (h : Good L d₀ m pc) : Good L d₀ m' (Function.update pc t q') := by
  subst hpc
  have hin : (pc t).inOp = true → m.committing = false :=
    fun hi => hC.committing_eq_false (hC.inOp t hi)
  have hcom := hC.commits t
  have hph := h.phase t
  have hclear := hC.cleared t
  have huniq : (pc t).commits = true → ∀ t' ≠ t, (pc t').commits = true → False :=
    fun hc t' htt hc' => htt (hC.unique t' t hc' hc)
  have hpass : (pc t).holds = false → q'.holds = false → m'.buf = m.buf → m'.lh = m.lh →
      Bufs L m' (Function.update pc t q') := fun h₁ h₂ hbuf hlh =>
    h.bufs.pass hbuf h₁ (fun _ _ _ _ hm => by rw [hlh]; exact hm) h₂
  have hadv : (pc t).commits = true → Data L d₀ m' → m'.buf = m.buf → m'.committing = true →
      q'.holds = false → Phase L d₀ m' q' → Good L d₀ m' (Function.update pc t q') :=
    h.advance hC
  have hstay : (pc t).holds = false → q'.holds = false → q'.commits = false →
      Good L d₀ m (Function.update pc t q') := h.stay
  have hnone := h.bufs.none_of (t := t)
  have hwrite := h.bufs.writing t
  have hlog := h.bufs.logged t
  have hid : pc t = .user → Function.update pc t .user = pc := by
    intro hu; rw [← hu, Function.update_eq_self]
  generalize pc t = q at hr hin hcom hph hclear huniq hpass hadv hstay hnone hwrite hlog hid
  cases hr with
  | begin | endOp | beginWait => exact hstay rfl rfl rfl
  | @write id b v hop hb =>
    have hc := hC.committing_eq_false (t := t) (by rw [hop]; simp)
    have hi := h.idle hc
    refine Good.operate hC hc (h.data.change (hnone rfl) hb id v) ?_
      (hi.change h.data.committed id v) (by simp [Point.commits])
    refine h.bufs.move (fun t' ht' => Function.update_of_ne ht' ..) (fun _ _ _ _ hm => hm)
      (fun c hc => ?_) (fun _ _ => rfl) (fun c _ hq => by rcases hq with hq | hq <;> cases hq)
    rcases hc with hc | hc <;> cases hc
    exact ⟨Function.update_self .., hb⟩
  | @evict b hp hbuf =>
    have hm : m.evict b = m := by
      by_cases hc : m.committing = true
      · obtain ⟨t', ht'⟩ := hC.committer hc
        exact (h.phase t' ht').evict h.data hp hbuf
      · exact Phase.evict (q := .user) h.data (h.idle (by simpa using hc)) hp hbuf
    rw [hm, hid rfl]; exact h
  | begun hc hl =>
    have hi := h.idle hc
    exact Good.operate hC hc ⟨h.data.cache, h.data.log, h.data.homes, h.data.length, h.data.nodup,
      h.data.committed, h.data.unlogged⟩ (hpass rfl rfl rfl rfl) ⟨hi.head, hi.home, hi.pinned⟩
      (by simp [Point.commits])
  | tooBig | outside =>
    have hc := hin rfl
    refine Good.operate hC hc h.data ?_ (h.idle hc) (by simp [Point.commits])
    refine h.bufs.move (fun _ _ => rfl) (fun _ _ _ _ hm => hm) (fun c hc => ?_) (fun _ _ => rfl)
      (fun c _ hq => ?_)
    · rcases hc with hc | hc <;> cases hc
    · rcases hq with hq | hq <;> cases hq
  | @log b h₁ h₂ h₃ =>
    have hc := hin rfl
    obtain ⟨hbt, hb⟩ := hwrite b (.inr rfl)
    have hbuf : (m.log t b).buf = m.buf := by unfold Mem.log; split_ifs <;> rfl
    refine Good.operate hC hc (h.data.logged hb h₁ h₂) ?_ (h.idle hc).logged
      (by simp [Point.commits])
    refine h.bufs.move (fun t' _ => by rw [hbuf]) (fun t' _ c _ hm => ?_) (fun c hc => ?_)
      (fun _ _ => rfl) (fun c hcb _ => ?_)
    · unfold Mem.log
      split_ifs
      · exact hm
      · exact List.mem_append_left _ hm
    · rcases hc with hc | hc <;> cases hc
    · rw [hbuf, hbt] at hcb
      obtain rfl := Option.some.inj hcb
      exact mem_log m t b
  | brelse =>
    have hc := hin rfl
    have hi := h.idle hc
    refine Good.operate hC hc (h.data.brelse fun b hb => hlog b hb (.inr rfl)) ?_
      ⟨hi.head, hi.home, hi.pinned⟩ (by simp [Point.commits])
    have hbuf : (m.brelse t).buf t = none := Function.update_self ..
    refine h.bufs.move (fun t' ht' => Function.update_of_ne ht' ..) (fun _ _ _ _ hm => hm)
      (fun c hc => ?_) (fun c hcb => ?_) (fun c hcb => ?_)
    · rcases hc with hc | hc <;> cases hc
    · rw [hbuf] at hcb; cases hcb
    · rw [hbuf] at hcb; cases hcb
  | endPanic hc => rw [hin rfl] at hc; cases hc
  | endCommit hc ho =>
    have hi := h.idle hc
    have hi' : Idle L d₀ ((m.ended t).setCommitting true) := ⟨hi.head, hi.home, hi.pinned⟩
    exact Good.operate hC hc ⟨h.data.cache, h.data.log, h.data.homes, h.data.length, h.data.nodup,
      h.data.committed, h.data.unlogged⟩ (hpass rfl rfl rfl rfl) hi' fun _ => hi'
  | endWake hc ho =>
    have hi := h.idle hc
    exact Good.operate hC hc ⟨h.data.cache, h.data.log, h.data.homes, h.data.length, h.data.nodup,
      h.data.committed, h.data.unlogged⟩ (hpass rfl rfl rfl rfl) ⟨hi.head, hi.home, hi.pinned⟩
      (by simp [Point.commits])
  | commit hl =>
    exact hadv rfl h.data rfl (hcom rfl) rfl ⟨hph rfl, fun j hj => absurd hj (Nat.not_lt_zero j)⟩
  | commitEmpty hl => exact hadv rfl h.data rfl (hcom rfl) rfl (hph rfl)
  | writeLog hb =>
    obtain ⟨hd, hp⟩ := (hph rfl).writeLog h.data hb
    exact hadv rfl hd rfl (hcom rfl) rfl hp
  | writeLogEnd hb => exact hadv rfl h.data rfl (hcom rfl) rfl ((hph rfl).writeLogEnd hb)
  | writeHead =>
    obtain ⟨hd, hp⟩ := (hph rfl).writeHead h.data (h.bufs.none_of_committing hC (hcom rfl))
    exact hadv rfl hd rfl (hcom rfl) rfl hp
  | install hb =>
    obtain ⟨hd, hp⟩ := (hph rfl).install h.data hb
    exact hadv rfl hd rfl (hcom rfl) rfl hp
  | installEnd hb => exact hadv rfl h.data rfl (hcom rfl) rfl ((hph rfl).installEnd hb)
  | erase =>
    obtain ⟨hd, hp⟩ := (hph rfl).erase h.data
    exact hadv rfl hd rfl (hcom rfl) rfl hp
  | eraseHead =>
    obtain ⟨hd, hp⟩ := (hph rfl).eraseHead h.data (hclear rfl)
    exact hadv rfl hd rfl (hcom rfl) rfl hp
  | commitDone =>
    have hi : Idle L d₀ m := hph rfl
    refine Good.move ⟨h.data.cache, h.data.log, h.data.homes, h.data.length, h.data.nodup,
      h.data.committed, h.data.unlogged⟩ (hpass rfl rfl rfl rfl)
      (fun _ => ⟨hi.head, hi.home, hi.pinned⟩) (by simp [Point.commits]) fun t' htt hc' => ?_
    exact (huniq rfl t' htt hc').elim

/-! ## Runs -/

variable {σ σ' : LState T} {ok : LState T → T → Prop}

omit [Fintype T] in
theorem Good.acquire (h : Good L d₀ m pc) (ha : Acquires (pc t) q') :
    Good L d₀ m (Function.update pc t q') := by
  have hphase := h.phase t
  have hnone := h.bufs.none_of (t := t)
  have hwriting := h.bufs.writing t
  have hstay : (pc t).holds = false → q'.holds = false → q'.commits = false →
      Good L d₀ m (Function.update pc t q') := h.stay
  have hpass : (pc t).holds = false → q'.holds = false → Bufs L m (Function.update pc t q') :=
    fun h₁ h₂ => h.bufs.pass rfl h₁ (fun _ _ _ _ hm => hm) h₂
  generalize pc t = q at ha hphase hnone hwriting hstay hpass
  cases ha with
  | begin | endOp => exact hstay rfl rfl rfl
  | @logWrite b =>
    refine Good.move h.data ?_ h.idle (by simp [Point.commits]) fun t' _ => h.phase t'
    refine h.bufs.move (fun _ _ => rfl) (fun _ _ _ _ hm => hm) (fun c hc => ?_) (fun _ _ => rfl)
      fun c _ hq => ?_
    · rcases hc with hc | hc <;> cases hc
      exact hwriting b (.inl rfl)
    · rcases hq with hq | hq <;> cases hq
  | commit =>
    exact Good.move h.data (hpass rfl rfl) h.idle (fun _ => hphase rfl) fun t' _ => h.phase t'

omit [Fintype T] in
theorem Good.release (h : Good L d₀ m pc) (hr : Releases (pc t) q') :
    Good L d₀ m (Function.update pc t q') := by
  have hphase := h.phase t
  have hlogged := h.bufs.logged t
  have hstay : (pc t).holds = false → q'.holds = false → q'.commits = false →
      Good L d₀ m (Function.update pc t q') := h.stay
  have hpass : (pc t).holds = false → q'.holds = false → Bufs L m (Function.update pc t q') :=
    fun h₁ h₂ => h.bufs.pass rfl h₁ (fun _ _ _ _ hm => hm) h₂
  generalize pc t = q at hr hphase hlogged hstay hpass
  cases hr with
  | begin | endUser | commit => exact hstay rfl rfl rfl
  | logWrite =>
    refine Good.move h.data ?_ h.idle (by simp [Point.commits]) fun t' _ => h.phase t'
    refine h.bufs.move (fun _ _ => rfl) (fun _ _ _ _ hm => hm) (fun c hc => ?_) (fun _ _ => rfl)
      fun c hb _ => hlogged c hb (.inl rfl)
    rcases hc with hc | hc <;> cases hc
  | endCommit =>
    exact Good.move h.data (hpass rfl rfl) h.idle (fun _ => hphase rfl) fun t' _ => h.phase t'

theorem Good.step (h : Good L d₀ σ.mem σ.pc) (hC : Control σ.mem σ.pc) {a : Option T}
    (hs : Step (code L) σ a σ') : Good L d₀ σ'.mem σ'.pc := by
  cases hs with
  | acquire _ hi _ => exact h.acquire (Does.acquires hi)
  | release _ hi _ => exact h.release (Does.releases hi)
  | @sleep t k q _ hi _ =>
    obtain ⟨hq, rfl⟩ := Does.sleeps hi
    exact h.stay (by rw [hq]; rfl) rfl rfl
  | @wakeup t k q _ hi =>
    have hw := Does.wakes hi
    have hstay : (σ.pc t).holds = false → q.holds = false → q.commits = false →
        Good L d₀ σ.mem (Function.update σ.pc t q) := h.stay
    generalize σ.pc t = q₀ at hw hstay
    cases hw <;> exact hstay rfl rfl rfl
  | resume => exact h
  | kill => exact h
  | run _ hi => exact (Does.runs hi).good rfl hC h

omit [DecidableEq T] [Fintype T] in
theorem Starts.good (h : Starts L d₀ σ) : Good L d₀ σ.mem σ.pc := by
  have hpc := h.pc
  have hempty := h.empty
  rw [h.mem]
  refine ⟨⟨fun _ _ => rfl, fun _ _ => rfl, List.forall_mem_nil _, ⟨Nat.zero_le _, L.pos⟩,
    List.nodup_nil, Nat.le_refl _, List.forall_mem_nil _⟩, ⟨fun t b hq => ?_, fun t b hb => ?_,
    fun t b hb => ?_⟩, fun _ => ⟨hempty, fun _ _ => rfl, List.forall_mem_nil _⟩, fun t hc => ?_⟩
  · rw [hpc] at hq; rcases hq with hq | hq <;> cases hq
  · cases hb
  · cases hb
  · rw [hpc] at hc; cases hc

theorem good_of_reach (h : Reach (code L) (Starts L d₀) ok σ) : Good L d₀ σ.mem σ.pc :=
  h.invariant_of (I := fun σ => Control σ.mem σ.pc) (J := fun σ => Good L d₀ σ.mem σ.pc)
    (fun _ hr => control_of_reach hr) (fun _ hi => hi.good)
    fun _ _ _ hC hG hs _ => hG.step hC hs

/-- **The disk can be recovered in each reachable state.** -/
theorem recoverable_of_reach (h : Reach (code L) (Starts L d₀) ok σ) :
    Recoverable L (σ.mem.durable d₀) σ.mem.disk := by
  have hG := good_of_reach h
  by_cases hc : σ.mem.committing = true
  · obtain ⟨t, ht⟩ := (control_of_reach h).committer hc
    exact (hG.phase t ht).recoverable hG.data
  · exact Phase.recoverable (q := .user) hG.data (hG.idle (by simpa using hc))

/-! ## Operations are atomic -/

/-- The operations in progress have written nothing that is committed, and no
    operation is committed in part. -/
structure Whole (m : Mem T) : Prop where
  fresh : ∀ w ∈ m.hist, w.op < m.next
  current : ∀ t id, m.op t = some id → id < m.next
  pending : ∀ w ∈ m.hist.take m.committed, ∀ t, m.op t ≠ some w.op
  whole : ∀ w ∈ m.hist.take m.committed, ∀ w' ∈ m.hist.drop m.committed, w.op ≠ w'.op

omit [DecidableEq T] [Fintype T] in
theorem Whole.congr (h : Whole m) (hhist : m'.hist = m.hist) (hc : m'.committed = m.committed)
    (hnext : m'.next = m.next) (hop : ∀ t id, m'.op t = some id → m.op t = some id) : Whole m' := by
  refine ⟨?_, fun t id hid => ?_, fun w hw t ht => ?_, ?_⟩
  · rw [hhist, hnext]; exact h.fresh
  · rw [hnext]; exact h.current t id (hop t id hid)
  · rw [hhist, hc] at hw; exact h.pending w hw t (hop t _ ht)
  · rw [hhist, hc]; exact h.whole

theorem Runs.whole (hr : Runs L t m q m' q') (hpc : pc t = q) (hC : Control m pc)
    (hlen : m.committed ≤ m.hist.length) (h : Whole m) : Whole m' := by
  cases hr with
  | @write id b v hop hb =>
    refine ⟨fun w hw => ?_, h.current, fun w hw => ?_, fun w hw w' hw' => ?_⟩
    · rcases List.mem_append.1 hw with hw | hw
      · exact h.fresh w hw
      · obtain rfl := List.mem_singleton.1 hw
        exact h.current t id hop
    · simp only [Mem.change, List.take_append_of_le_length hlen] at hw
      exact h.pending w hw
    · simp only [Mem.change, List.take_append_of_le_length hlen,
        List.drop_append_of_le_length hlen] at hw hw'
      rcases List.mem_append.1 hw' with hw' | hw'
      · exact h.whole w hw w' hw'
      · obtain rfl := List.mem_singleton.1 hw'
        rintro rfl
        exact h.pending w hw t hop
  | begun hc hl =>
    refine ⟨fun w hw => Nat.lt_succ_of_lt (h.fresh w hw), fun t' id hid => ?_,
      fun w hw t' hw' => ?_, h.whole⟩
    · simp only [Mem.begin, Function.update_apply] at hid ⊢
      split_ifs at hid with ht
      · cases hid; exact Nat.lt_succ_self _
      · exact Nat.lt_succ_of_lt (h.current t' id hid)
    · simp only [Mem.begin, Function.update_apply] at hw'
      split_ifs at hw' with ht
      · have := h.fresh w (List.mem_of_mem_take hw)
        have := Option.some.inj hw'
        omega
      · exact h.pending w hw t' hw'
  | @log b =>
    refine h.congr ?_ ?_ ?_ ?_ <;> unfold Mem.log <;> split_ifs <;>
      first | rfl | exact fun _ _ hid => hid
  | endPanic | endCommit | endWake =>
    refine h.congr rfl rfl rfl fun t' id hid => ?_
    by_cases ht : t' = t
    · subst ht; exact absurd hid (by simp [Mem.setCommitting, Mem.ended])
    · simpa [Mem.setCommitting, Mem.ended, ht] using hid
  | writeHead =>
    -- no operation is in progress
    have hnone := hC.op_eq_none (hC.commits t (by rw [hpc]; rfl))
    refine ⟨h.fresh, h.current, fun w _ t' ht' => ?_, fun w _ w' hw' => ?_⟩
    · have := hnone t'
      rw [show ((m.writeHead L).commit).op t' = m.op t' from rfl, this] at ht'
      cases ht'
    · simp [Mem.commit] at hw'
  | _ => exact h.congr rfl rfl rfl fun _ _ hid => hid

theorem whole_of_reach (h : Reach (code L) (Starts L d₀) ok σ) : Whole σ.mem := by
  refine h.invariant_of (I := fun σ => Control σ.mem σ.pc ∧ Good L d₀ σ.mem σ.pc)
    (J := fun σ => Whole σ.mem) (fun _ hr => ⟨control_of_reach hr, good_of_reach hr⟩)
    (fun σ hi => ?_) ?_
  · rw [hi.mem]
    exact ⟨List.forall_mem_nil _, fun t id hid => (by cases hid), List.forall_mem_nil _,
      List.forall_mem_nil _⟩
  · intro σ a σ' hI hW hs _
    cases hs with
    | run _ hi => exact (Does.runs hi).whole rfl hI.1 hI.2.data.committed hW
    | _ => exact hW

omit [DecidableEq T] in
/-- When no operation is in progress and no process commits, all is committed. -/
theorem Good.committed (h : Good L d₀ m pc) (hC : Control m pc) (hout : m.outstanding = 0)
    (hc : m.committing = false) : m.committed = m.hist.length := by
  have hlh : m.lh = [] := by
    by_contra hne
    rcases hC.rest hne with hc' | hpos
    · rw [hc] at hc'; cases hc'
    · omega
  have hbuf : ∀ t, m.buf t = none := fun t => by
    refine h.bufs.none_of ?_
    by_contra hq
    have := hC.outstanding_pos (hC.inOp t (Point.inOp_of_holds (by simpa using hq)))
    omega
  have hdrop : m.hist.drop m.committed = [] := by
    refine List.eq_nil_iff_forall_not_mem.2 fun w hw => ?_
    rcases h.data.unlogged w hw with hm | ⟨t, ht⟩
    · rw [hlh] at hm; cases hm
    · rw [hbuf] at ht; cases ht
  have := List.drop_eq_nil_iff.1 hdrop
  exact Nat.le_antisymm h.data.committed this

/-- **The log makes operations atomic.**  After a crash at any moment, and any
    number of crashes during recovery, recovery leaves an empty log, and the home
    blocks hold the first `committed` writes and no others.  These are all writes
    of the operations that have made them.  When no operation is in progress and
    no process commits, they are all writes. -/
theorem crash_atomic (h : Reach (code L) (Starts L d₀) ok σ) (ks : List ℕ) :
    let d := ks.foldl (fun d k => recoverTake L k d) σ.mem.disk
    (∀ b, ¬ L.InLog b → recover L d b =
        replay d₀ ((σ.mem.hist.take σ.mem.committed).map Write.effect) b) ∧
      readHead (recover L d L.start) = [] ∧
      (∀ w ∈ σ.mem.hist.take σ.mem.committed, ∀ w' ∈ σ.mem.hist.drop σ.mem.committed,
        w.op ≠ w'.op) ∧
      (σ.mem.outstanding = 0 → σ.mem.committing = false →
        σ.mem.committed = σ.mem.hist.length) := by
  have hrec : Recoverable L (σ.mem.durable d₀)
      (ks.foldl (fun d k => recoverTake L k d) σ.mem.disk) := by
    have h₀ := recoverable_of_reach h
    generalize σ.mem.disk = d at h₀
    induction ks generalizing d with
    | nil => exact h₀
    | cons k ks ih => exact ih _ (h₀.recoverTake k)
  exact ⟨hrec.recover.1, hrec.recover.2, (whole_of_reach h).whole,
    (good_of_reach h).committed (control_of_reach h)⟩

/-- An operation writes block 50 and commits; the machine crashes before the block
    is installed, and again during recovery. -/
def crashing : List (Event Unit Act) :=
  beginOp () ++ writeBlocks () 50 1 ++ [.go () .endOp, .go () .none, .go () .none, .go () .none,
    .go () .none, .go () .none, .go () .none, .go () .none]

theorem crash_atomic_crashing : ∃ σ : LState Unit,
    Reach (code mkfs) (Starts mkfs blank) (fun _ _ => True) σ ∧
    (σ.mem.committed, σ.mem.disk 50 0, recover mkfs σ.mem.disk 50 0) = (1, 0, 7) ∧
    let d := [0, 1].foldl (fun d k => recoverTake mkfs k d) σ.mem.disk
    (∀ b, ¬ mkfs.InLog b → recover mkfs d b =
        replay blank ((σ.mem.hist.take σ.mem.committed).map Write.effect) b) ∧
      readHead (recover mkfs d mkfs.start) = [] ∧
      (∀ w ∈ σ.mem.hist.take σ.mem.committed, ∀ w' ∈ σ.mem.hist.drop σ.mem.committed,
        w.op ≠ w'.op) ∧
      (σ.mem.outstanding = 0 → σ.mem.committing = false →
        σ.mem.committed = σ.mem.hist.length) := by
  have hplay : (play (pick mkfs) (fun _ _ => true) crashing (start blank)).map
      (fun σ => (σ.mem.committed, σ.mem.disk 50 0, recover mkfs σ.mem.disk 50 0)) =
      some (1, 0, 7) := by decide +kernel
  obtain ⟨σ, hr, hf⟩ := reach_play mkfs (blank_empty _) _ (fun _ _ _ => trivial) hplay
  exact ⟨σ, hr, hf, crash_atomic hr [0, 1]⟩

end

end OSLabs.Log
