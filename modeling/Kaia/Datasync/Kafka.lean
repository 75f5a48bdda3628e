import Kaia.Foundation.Folds
import Kaia.Foundation.Rlp
import Kaia.Istanbul.Types

/-! # Chain data over Kafka

A producer cuts its data into segments. A consumer collects the segments of each key in a buffer,
hands whole messages to the handler of their topic, and marks the offset from which the next
session starts.
-/

namespace Kaia.Kafka

open Foundation Foundation.Rlp List

def keyTotalSegments : Bytes := "totalSegments".toUTF8.data.toList

def keySegmentIdx : Bytes := "segmentIdx".toUTF8.data.toList

def keyVersion : Bytes := "version".toUTF8.data.toList

def keyProducerId : Bytes := "producerId".toUTF8.data.toList

def msgVersion1_0 : Bytes := "1.0".toUTF8.data.toList

structure RecordHeader where
  key : Bytes
  value : Bytes

structure ProducerMessage where
  topic : String
  key : Bytes
  headers : List RecordHeader
  value : Bytes

structure ConsumerMessage extends ProducerMessage where
  offset : ℕ

structure Segment where
  orig : ConsumerMessage
  total : ℕ
  index : ℕ
  producerId : Bytes

abbrev Segment.key (s : Segment) : Bytes := s.orig.key

inductive ConsumeError
  | wrongHeaderNumber (headerLen : ℕ)
  | wrongHeaderKey (expected actual : Bytes)
  | wrongMsgVersion
  | missingSegment
  | noHandler
  | bufferOverflow (max current : ℕ)
  | msgExpired
  | handlerFailed
  | indexOutOfRange

/-! ## Producers -/

/-- The configuration of a producer that cuts data into segments of the given size. -/
structure Producer (size : ℕ) where
  msgVersion : Bytes
  producerId : Bytes

/-- The loop of the source only ends for a positive size. -/
def split (size : ℕ) (data : Bytes) : List Bytes :=
  if 0 < size ∧ size < data.length then data.take size :: split size (data.drop size) else [data]
termination_by data.length
decreasing_by simp; omega

def makeProducerMessage {size : ℕ} (k : Producer size) (topic : String) (key segment : Bytes)
    (segmentIdx totalSegments : ℕ) : ProducerMessage where
  topic
  key
  headers := [⟨keyTotalSegments, fixedBytes 8 totalSegments⟩,
      ⟨keySegmentIdx, fixedBytes 8 segmentIdx⟩] ++
    if k.msgVersion = msgVersion1_0 then
      [⟨keyVersion, k.msgVersion⟩, ⟨keyProducerId, k.producerId⟩] else []
  value := segment

/-- What is sent until a send fails. -/
def publish {size : ℕ} (k : Producer size) (topic : String) (key data : Bytes) (sends : ℕ) :
    List ProducerMessage :=
  let segments := split size data
  (segments.zipIdx.map fun (segment, idx) =>
    makeProducerMessage k topic key segment idx segments.length).take sends

/-! ## The consumer -/

def bigEndianUint64 (b : Bytes) : Except ConsumeError ℕ :=
  if b.length < 8 then .error .indexOutOfRange else .ok (ofBytes (b.take 8))

def checkKey (expected : Bytes) (header : RecordHeader) : Except ConsumeError Unit :=
  if header.key = expected then .ok () else .error (.wrongHeaderKey expected header.key)

def newSegment (msg : ConsumerMessage) : Except ConsumeError Segment :=
  match msg.headers with
  | [total, idx, version, producer] => do
    checkKey keyVersion version
    if version.value = msgVersion1_0 then do
      checkKey keyProducerId producer
      parse total idx producer.value
    else .error .wrongMsgVersion
  | [total, idx] => parse total idx []
  | _ => .error (.wrongHeaderNumber msg.headers.length)
where
  parse (total idx : RecordHeader) (producerId : Bytes) : Except ConsumeError Segment := do
    checkKey keyTotalSegments total
    checkKey keySegmentIdx idx
    let totalSegments ← bigEndianUint64 total.value
    let segmentIdx ← bigEndianUint64 idx.value
    return ⟨msg, totalSegments, segmentIdx, producerId⟩

/-- The buffered segments of a message, of which there is at least one. -/
structure Buffered where
  first : Segment
  later : List Segment

def Buffered.segments (m : Buffered) : List Segment := m.first :: m.later

def insertSegment (new : Segment) : List Buffered → Except ConsumeError (List Buffered)
  | [] => .ok (if new.index = 0 then [⟨new, []⟩] else [])
  | m :: buffer =>
    if m.first.key = new.key ∧ m.first.producerId = new.producerId then
      if m.segments.length < new.index then .error .missingSegment
      else if new.index < m.segments.length then .ok (m :: buffer)
      else .ok (⟨m.first, m.later ++ [new]⟩ :: buffer)
    else (insertSegment new buffer).map (m :: ·)

/-- What is seen of a consumer. -/
inductive Event
  | handled (key value : Bytes) (ok : Bool)
  | errCallback (key : Bytes) (ok : Bool)
  | marked (offset : ℕ)

/-- The outcome of a call depends on what has happened before. -/
structure Consumer where
  maxMessageNumber : ℕ
  handlers : String → Option (List Event → Bytes → Bytes → Bool)
  errCallback : Option (List Event → Bytes → Bool)

/-- The latest event is the first one of the log. -/
structure Claim where
  buffer : List Buffered
  log : List Event

def handleBufferedMessages (c : Consumer) : List Buffered → List Event → Claim × Option ConsumeError
  | [], log => (⟨[], log⟩, none)
  | m :: buffer, log =>
    if m.segments.length ≠ m.first.total then (⟨m :: buffer, log⟩, none)
    else
      match c.handlers m.first.orig.topic with
      | none => (⟨m :: buffer, log⟩, some .noHandler)
      | some f =>
        let value := m.segments.flatMap (·.orig.value)
        if f log m.first.key value then
          handleBufferedMessages c buffer (.handled m.first.key value true :: log)
        else (⟨m :: buffer, .handled m.first.key value false :: log⟩, some .handlerFailed)

def updateOffset (s : Claim) (lastMsg : ConsumerMessage) : Claim :=
  match s.buffer with
  | m :: _ => { s with log := .marked m.first.orig.offset :: s.log }
  | [] => { s with log := .marked (lastMsg.offset + 1) :: s.log }

/-- The body of the loop of `consumeClaim`. -/
def consume (c : Consumer) (s : Claim) (msg : ConsumerMessage) : Claim × Option ConsumeError :=
  if c.maxMessageNumber < s.buffer.length then
    (s, some (.bufferOverflow c.maxMessageNumber s.buffer.length))
  else
    match newSegment msg with
    | .error e => (s, some e)
    | .ok segment =>
      match insertSegment segment s.buffer with
      | .error e => (s, some e)
      | .ok buffer =>
        match handleBufferedMessages c buffer s.log with
        | (s, some e) => (s, some e)
        | (s, none) => (updateOffset s msg, none)

/-- The messages until the session ends or the timer fires. -/
def consumeClaim (c : Consumer) (expires : Bool) :
    Claim → List ConsumerMessage → Claim × Option ConsumeError
  | s, [] => (s, if expires then some .msgExpired else none)
  | s, msg :: msgs =>
    match consume c s msg with
    | (s, some e) => (s, some e)
    | (s, none) => consumeClaim c expires s msgs

/-- A panic ends the process before any callback. -/
def handleError (c : Consumer) (s : Claim) : ConsumeError → Claim
  | .indexOutOfRange => s
  | _ =>
    match s.buffer, c.errCallback with
    | m :: buffer, some f =>
      let ok := f s.log m.first.key
      let log := .errCallback m.first.key ok :: s.log
      if ok then updateOffset ⟨buffer, log⟩ m.first.orig else ⟨m :: buffer, log⟩
    | _, _ => s

def session (c : Consumer) (expires : Bool) (msgs : List ConsumerMessage) (log : List Event) :
    List Event :=
  match consumeClaim c expires ⟨[], log⟩ msgs with
  | (s, some e) => (handleError c s e).log
  | (s, none) => s.log

def lastMarked : List Event → ℕ
  | [] => 0
  | .marked offset :: _ => offset
  | _ :: log => lastMarked log

/-- Each session starts at the last marked offset and takes some of the messages from there on. -/
def sessions (c : Consumer) (messages : List ConsumerMessage) :
    List (ℕ × Bool) → List Event → List Event
  | [], log => log
  | (n, expires) :: rest, log =>
    sessions c messages rest (session c expires
      ((messages.filter (lastMarked log ≤ ·.offset)).take n) log)

/-! ## Sessions as steps -/

def firsts (buffer : List Buffered) : List ConsumerMessage := buffer.map (·.first.orig)

/-- What a session can do to its claim and the messages that are left. -/
inductive Step : Claim × List ConsumerMessage → Claim × List ConsumerMessage → Prop
  | insert {new : Segment} {buffer buffer' log left} (hnew : newSegment new.orig = .ok new)
      (hins : insertSegment new buffer = .ok buffer') :
      Step (⟨buffer, log⟩, new.orig :: left) (⟨buffer', log⟩, left)
  | handle {m : Buffered} {buffer log left} (ok : Bool) (hlen : m.segments.length = m.first.total) :
      Step (⟨m :: buffer, log⟩, left) (⟨if ok then buffer else m :: buffer,
        .handled m.first.key (m.segments.flatMap (·.orig.value)) ok :: log⟩, left)
  | report {m : Buffered} {buffer log left} (ok : Bool) :
      Step (⟨m :: buffer, log⟩, left)
        (⟨if ok then buffer else m :: buffer, .errCallback m.first.key ok :: log⟩, left)
  | mark {s : Claim} {left offset} (hle : ∀ x ∈ firsts s.buffer ++ left, offset ≤ x.offset) :
      Step (s, left) (⟨s.buffer, .marked offset :: s.log⟩, left)

variable {c : Consumer} {new : Segment} {buffer buffer' : List Buffered} {m : Buffered}
  {log : List Event} {s : Claim} {msg : ConsumerMessage} {msgs left : List ConsumerMessage}

theorem insertSegment_cases (h : insertSegment new buffer = .ok buffer') :
    (buffer' = buffer ∧ (new.index = 0 → ∃ m ∈ buffer, m.first.key = new.key)) ∨
    (new.index = 0 ∧ buffer' = buffer ++ [⟨new, []⟩]) ∨
    ∃ front m back, buffer = front ++ m :: back ∧ m.first.key = new.key ∧
      new.index = m.segments.length ∧ buffer' = front ++ ⟨m.first, m.later ++ [new]⟩ :: back := by
  induction buffer generalizing buffer' with
  | nil =>
    cases h
    by_cases hzero : new.index = 0
    · exact .inr (.inl ⟨hzero, if_pos hzero⟩)
    · exact .inl ⟨if_neg hzero, (absurd · hzero)⟩
  | cons m buffer ih =>
    rw [insertSegment] at h
    split_ifs at h with hkey hmissing hdup
    · cases h
      exact .inl ⟨rfl, fun _ => ⟨m, mem_cons_self, hkey.1⟩⟩
    · cases h
      exact .inr (.inr ⟨[], m, buffer, rfl, hkey.1, by omega, rfl⟩)
    · obtain ⟨rest, hrest, rfl⟩ := map_eq_ok.mp h
      rcases ih hrest with ⟨rfl, hex⟩ | ⟨hzero, rfl⟩ | ⟨front, m', back, rfl, hm, hidx, rfl⟩
      · refine .inl ⟨rfl, fun hzero => ?_⟩
        obtain ⟨m', hm', hm⟩ := hex hzero
        exact ⟨m', mem_cons_of_mem m hm', hm⟩
      · exact .inr (.inl ⟨hzero, rfl⟩)
      · exact .inr (.inr ⟨m :: front, m', back, rfl, hm, hidx, rfl⟩)

abbrev Steps := Relation.ReflTransGen Step

/-- The buffered messages started before those that are left. -/
def Ordered (a : Claim × List ConsumerMessage) : Prop :=
  (firsts a.1.buffer ++ a.2).Pairwise (·.offset < ·.offset)

variable {a a' : Claim × List ConsumerMessage}

theorem firsts_insertSegment (hins : insertSegment new buffer = .ok buffer') :
    (firsts buffer' = firsts buffer ∧ (new.index = 0 → ∃ m ∈ buffer, m.first.key = new.key)) ∨
      firsts buffer' = firsts buffer ++ [new.orig] := by
  rcases insertSegment_cases hins with ⟨rfl, hzero⟩ | ⟨-, rfl⟩ | ⟨front, m, back, rfl, hkey, -, rfl⟩
  · exact .inl ⟨rfl, hzero⟩
  · exact .inr map_append
  · exact .inl ⟨by simp [firsts], fun _ => ⟨m, by simp, hkey⟩⟩

theorem Step.ordered (h : Step a a') (ha : Ordered a) : Ordered a' := by
  unfold Ordered at ha ⊢
  cases h with
  | insert hnew hins =>
    rcases firsts_insertSegment hins with ⟨heq, -⟩ | heq
    · rw [heq]
      exact ha.sublist ((sublist_cons_self _ _).append_left _)
    · rw [heq, append_assoc]
      exact ha
  | handle ok | report ok =>
    cases ok with
    | true => exact ha.of_cons
    | false => exact ha
  | mark => exact ha

theorem Steps.invariant {P : Claim × List ConsumerMessage → Prop} (h : Steps a a')
    (hP : ∀ b b', Step b b' → P b → P b') (ha : P a) : P a' := by
  induction h with
  | refl => exact ha
  | tail _ hstep ih => exact hP _ _ hstep ih

theorem Steps.ordered (h : Steps a a') : Ordered a → Ordered a' :=
  Steps.invariant h fun _ _ => Step.ordered

theorem updateOffset_step (h : Ordered (s, left)) (hlast : ∀ x ∈ left, msg.offset < x.offset) :
    Step (s, left) (updateOffset s msg, left) := by
  obtain ⟨_ | ⟨m, buffer⟩, log⟩ := s
  · exact .mark hlast
  · refine .mark fun x hx => ?_
    rcases mem_cons.mp hx with rfl | hx
    · exact le_rfl
    · exact (rel_of_pairwise_cons h hx).le

theorem handleBufferedMessages_steps (c : Consumer) (buffer : List Buffered) (log : List Event)
    (left : List ConsumerMessage) :
    Steps (⟨buffer, log⟩, left) ((handleBufferedMessages c buffer log).1, left) := by
  fun_induction handleBufferedMessages c buffer log with
  | case1 | case2 | case3 => exact .refl
  | case4 m buffer log hlen f _ value _ ih => exact .head (.handle true (not_not.mp hlen)) ih
  | case5 m buffer log hlen f _ value _ => exact .single (.handle false (not_not.mp hlen))

theorem newSegment_orig (h : newSegment msg = .ok new) : new.orig = msg := by
  have hparse {total idx : RecordHeader} {producerId : Bytes}
      (h : newSegment.parse msg total idx producerId = .ok new) : new.orig = msg := by
    obtain ⟨-, -, h⟩ := bind_eq_ok.mp h
    obtain ⟨-, -, h⟩ := bind_eq_ok.mp h
    obtain ⟨_, -, h⟩ := bind_eq_ok.mp h
    obtain ⟨_, -, h⟩ := bind_eq_ok.mp h
    cases h
    rfl
  unfold newSegment at h
  split at h
  · obtain ⟨-, -, h⟩ := bind_eq_ok.mp h
    split at h
    · obtain ⟨-, -, h⟩ := bind_eq_ok.mp h
      exact hparse h
    · cases h
  · exact hparse h
  · cases h

theorem consume_steps {s' : Claim} {err : Option ConsumeError} (h : Ordered (s, msg :: left))
    (hc : consume c s msg = (s', err)) :
    ∃ left', Steps (s, msg :: left) (s', left') ∧ (err = none → left' = left) := by
  unfold consume at hc
  split at hc
  · cases hc
    exact ⟨_, .refl, nofun⟩
  split at hc
  · cases hc
    exact ⟨_, .refl, nofun⟩
  · next new hnew =>
    split at hc
    · cases hc
      exact ⟨_, .refl, nofun⟩
    · next buffer hins =>
      obtain rfl := newSegment_orig hnew
      have hsteps := (handleBufferedMessages_steps c buffer s.log left).head (.insert hnew hins)
      split at hc
      · next heq =>
        cases hc
        rw [heq] at hsteps
        exact ⟨left, hsteps, nofun⟩
      · next heq =>
        cases hc
        rw [heq] at hsteps
        have hmark := updateOffset_step (Steps.ordered hsteps h) fun x hx =>
          rel_of_pairwise_cons (pairwise_append.mp h).2.1 hx
        exact ⟨left, hsteps.tail hmark, fun _ => rfl⟩

theorem consumeClaim_steps (expires : Bool) (h : Ordered (s, msgs ++ left)) :
    ∃ left', Steps (s, msgs ++ left) ((consumeClaim c expires s msgs).1, left') := by
  fun_induction consumeClaim c expires s msgs with
  | case1 s => exact ⟨left, .refl⟩
  | case2 s msg msgs s' e heq =>
    obtain ⟨left', hsteps, -⟩ := consume_steps h heq
    exact ⟨left', hsteps⟩
  | case3 s msg msgs s' heq ih =>
    obtain ⟨_, hsteps, hleft⟩ := consume_steps h heq
    obtain rfl := hleft rfl
    obtain ⟨left', hrest⟩ := ih (Steps.ordered hsteps h)
    exact ⟨left', hsteps.trans hrest⟩

theorem handleError_steps (h : Ordered (s, left)) (e : ConsumeError) :
    Steps (s, left) (handleError c s e, left) := by
  unfold handleError
  split
  · exact .refl
  split
  · next m buffer f hbuffer _ =>
    obtain ⟨_, log⟩ := s
    obtain rfl : _ = m :: buffer := hbuffer
    dsimp only
    cases hok : f log m.first.key with
    | true =>
      refine .head (.report true) (.single (updateOffset_step h.of_cons fun x hx => ?_))
      exact rel_of_pairwise_cons h (mem_append_right _ hx)
    | false => exact .single (.report false)
  · exact .refl

theorem session_steps (expires : Bool) (h : Ordered (⟨[], log⟩, msgs ++ left)) :
    ∃ s' left', Steps (⟨[], log⟩, msgs ++ left) (s', left') ∧
      s'.log = session c expires msgs log := by
  obtain ⟨left', hsteps⟩ := consumeClaim_steps (c := c) expires h
  unfold session
  split
  · next heq =>
    rw [heq] at hsteps
    exact ⟨_, left', hsteps.trans (handleError_steps (Steps.ordered hsteps h) _), rfl⟩
  · next heq =>
    rw [heq] at hsteps
    exact ⟨_, left', hsteps, rfl⟩

structure Partition where
  messages : List ConsumerMessage
  increasing : messages.Pairwise (·.offset < ·.offset)

/-- What every session keeps holds after all of them. -/
theorem sessions_induction {I : List Event → Prop} (c : Consumer) (p : Partition)
    (runs : List (ℕ × Bool)) (hnil : I [])
    (hkeep : ∀ log s left, I log →
      Ordered (⟨[], log⟩, p.messages.filter (lastMarked log ≤ ·.offset)) →
      Steps (⟨[], log⟩, p.messages.filter (lastMarked log ≤ ·.offset)) (s, left) → I s.log) :
    I (sessions c p.messages runs []) := by
  suffices h : ∀ log, I log → I (sessions c p.messages runs log) from h [] hnil
  intro log hlog
  induction runs generalizing log with
  | nil => exact hlog
  | cons run runs ih =>
    refine ih _ ?_
    have hordered : Ordered (⟨[], log⟩, p.messages.filter (lastMarked log ≤ ·.offset)) :=
      p.increasing.filter _
    have hsplit := take_append_drop run.1 (p.messages.filter (lastMarked log ≤ ·.offset))
    obtain ⟨s, left, hsteps, hs⟩ := session_steps (c := c) run.2 (hsplit.symm ▸ hordered)
    rw [hsplit] at hsteps
    exact hs ▸ hkeep log s left hlog hordered hsteps

/-! ## Marked offsets -/

/-- The key was handled, or its failure was reported. -/
def Settled (log : List Event) (key : Bytes) : Prop :=
  (∃ value, .handled key value true ∈ log) ∨ ∃ ok, .errCallback key ok ∈ log

def IsFirst (msg : ConsumerMessage) : Prop := ∃ seg, newSegment msg = .ok seg ∧ seg.index = 0

/-- Whenever an offset was marked, the keys that had started before it were settled. -/
def MarksBehind (messages : List ConsumerMessage) (log : List Event) : Prop :=
  ∀ offset earlier, .marked offset :: earlier <:+ log →
    ∀ msg ∈ messages, IsFirst msg → msg.offset < offset → Settled earlier msg.key

/-- The key of every first segment is settled or buffered, unless the segment is left. -/
structure Tracks (messages : List ConsumerMessage) (a : Claim × List ConsumerMessage) : Prop where
  covered : ∀ msg ∈ messages, IsFirst msg → Settled a.1.log msg.key ∨ msg ∈ a.2 ∨
    ∃ first ∈ firsts a.1.buffer, first.key = msg.key ∧ first.offset ≤ msg.offset
  marks : MarksBehind messages a.1.log

variable {messages : List ConsumerMessage} {e : Event} {key : Bytes}

theorem Settled.suffix {log' : List Event} (h : Settled log key) (hlog : log <:+ log') :
    Settled log' key :=
  h.imp (fun ⟨v, hv⟩ => ⟨v, hlog.subset hv⟩) fun ⟨ok, hok⟩ => ⟨ok, hlog.subset hok⟩

theorem MarksBehind.cons (h : MarksBehind messages log)
    (he : ∀ offset, e = .marked offset → ∀ msg ∈ messages, IsFirst msg → msg.offset < offset →
      Settled log msg.key) : MarksBehind messages (e :: log) := by
  intro offset earlier hsuffix
  rcases suffix_cons_iff.mp hsuffix with heq | hsuffix
  · obtain ⟨rfl, rfl⟩ := cons.inj heq
    exact he offset rfl
  · exact h offset earlier hsuffix

theorem Tracks.event (h : Tracks messages (s, left)) (he : ∀ offset, e ≠ .marked offset) :
    Tracks messages (⟨s.buffer, e :: s.log⟩, left) where
  covered msg hmsg hfirst :=
    (h.covered msg hmsg hfirst).imp_left (·.suffix (suffix_cons e s.log))
  marks := h.marks.cons fun offset heq => absurd heq (he offset)

theorem Tracks.settle (h : Tracks messages (⟨m :: buffer, log⟩, left))
    (he : ∀ offset, e ≠ .marked offset) (hs : Settled (e :: log) m.first.key) :
    Tracks messages (⟨buffer, e :: log⟩, left) := by
  refine ⟨fun msg hmsg hfirst => ?_, (h.event he).marks⟩
  rcases (h.event he).covered msg hmsg hfirst with hdone | hleft | ⟨first, hmem, hkey, hle⟩
  · exact .inl hdone
  · exact .inr (.inl hleft)
  · rcases mem_cons.mp hmem with rfl | hmem
    · exact .inl (hkey ▸ hs)
    · exact .inr (.inr ⟨first, hmem, hkey, hle⟩)

theorem Tracks.insert (h : Tracks messages (⟨buffer, log⟩, new.orig :: left))
    (ho : Ordered (⟨buffer, log⟩, new.orig :: left)) (hnew : newSegment new.orig = .ok new)
    (hins : insertSegment new buffer = .ok buffer') : Tracks messages (⟨buffer', log⟩, left) := by
  have hsub : firsts buffer ⊆ firsts buffer' := by
    rcases firsts_insertSegment hins with ⟨heq, -⟩ | heq
    · exact heq.symm ▸ Subset.refl _
    · exact heq.symm ▸ subset_append_left _ _
  refine ⟨fun msg hmsg hfirst => ?_, h.marks⟩
  rcases h.covered msg hmsg hfirst with hdone | hleft | ⟨first, hmem, hle⟩
  · exact .inl hdone
  · rcases mem_cons.mp hleft with rfl | hleft
    · obtain ⟨seg, hseg, hidx⟩ := hfirst
      obtain rfl := Except.ok.inj (hnew.symm.trans hseg)
      rcases firsts_insertSegment hins with ⟨-, hzero⟩ | heq
      · obtain ⟨m, hm, hkey⟩ := hzero hidx
        have hmem : m.first.orig ∈ firsts buffer := mem_map_of_mem hm
        have hlt := (pairwise_append.mp ho).2.2 _ hmem _ mem_cons_self
        exact .inr (.inr ⟨_, hsub hmem, hkey, hlt.le⟩)
      · exact .inr (.inr ⟨new.orig, heq.symm ▸ mem_append_right _ mem_cons_self, rfl, le_rfl⟩)
    · exact .inr (.inl hleft)
  · exact .inr (.inr ⟨first, hsub hmem, hle⟩)

theorem Step.tracks (h : Step a a') (ho : Ordered a) (ha : Tracks messages a) :
    Tracks messages a' := by
  cases h with
  | insert hnew hins => exact ha.insert ho hnew hins
  | handle ok =>
    cases ok with
    | true => exact ha.settle (fun _ => nofun) (.inl ⟨_, mem_cons_self⟩)
    | false => exact ha.event fun _ => nofun
  | report ok =>
    cases ok with
    | true => exact ha.settle (fun _ => nofun) (.inr ⟨true, mem_cons_self⟩)
    | false => exact ha.event fun _ => nofun
  | @mark s left offset hle =>
    refine ⟨fun msg hmsg hfirst => ?_, ha.marks.cons ?_⟩
    · exact (ha.covered msg hmsg hfirst).imp_left (·.suffix (suffix_cons _ s.log))
    · rintro _ ⟨⟩ msg hmsg hfirst hlt
      rcases ha.covered msg hmsg hfirst with hdone | hleft | ⟨first, hmem, -, hmsgle⟩
      · exact hdone
      · have := hle msg (mem_append_right _ hleft)
        omega
      · have := hle first (mem_append_left _ hmem)
        omega

theorem lastMarked_suffix (log : List Event) (hne : lastMarked log ≠ 0) :
    ∃ earlier, .marked (lastMarked log) :: earlier <:+ log := by
  fun_induction lastMarked log with
  | case1 => exact absurd rfl hne
  | case2 offset log => exact ⟨log, suffix_rfl⟩
  | case3 e log _ ih =>
    obtain ⟨earlier, h⟩ := ih hne
    exact ⟨earlier, h.trans (suffix_cons e log)⟩

theorem marked_offsets_behind (c : Consumer) (p : Partition) (runs : List (ℕ × Bool)) :
    MarksBehind p.messages (sessions c p.messages runs []) := by
  refine sessions_induction c p runs (fun _ _ h => by cases suffix_nil.mp h) ?_
  intro log s left hlog hordered hsteps
  have hstart : Tracks p.messages (⟨[], log⟩, p.messages.filter (lastMarked log ≤ ·.offset)) := by
    refine ⟨fun msg hmsg hfirst => ?_, hlog⟩
    by_cases hle : lastMarked log ≤ msg.offset
    · exact .inr (.inl (mem_filter.mpr ⟨hmsg, decide_eq_true hle⟩))
    · obtain ⟨earlier, hsuffix⟩ := lastMarked_suffix log (by omega)
      have hdone := hlog _ earlier hsuffix msg hmsg hfirst (by omega)
      exact .inl (hdone.suffix ((suffix_cons _ earlier).trans hsuffix))
  have hend := Steps.invariant (P := fun a => Ordered a ∧ Tracks p.messages a) hsteps
    (fun _ _ h ha => ⟨h.ordered ha.1, h.tracks ha.1 ha.2⟩) ⟨hordered, hstart⟩
  exact hend.2.marks

/-- Three bytes in segments of two. -/
def cutPartition : Partition where
  messages :=
    let k : Producer 2 := ⟨msgVersion1_0, [9]⟩
    [⟨makeProducerMessage k "block" [5] [1, 2] 0 2, 3⟩,
      ⟨makeProducerMessage k "block" [5] [3] 1 2, 4⟩]
  increasing := by simp

def accepting : Consumer := ⟨10, fun _ => some fun _ _ _ => true, none⟩

/-- A session ends between the segments, and the next one starts with the first again. -/
theorem marked_offsets_behind_resumed :
    sessions accepting cutPartition.messages [(1, false), (5, false)] [] =
        [.marked 5, .handled [5] [1, 2, 3] true, .marked 3, .marked 3] ∧
      MarksBehind cutPartition.messages
        [.marked 5, .handled [5] [1, 2, 3] true, .marked 3, .marked 3] :=
  ⟨rfl, marked_offsets_behind accepting cutPartition [(1, false), (5, false)]⟩

/-! ## Reassembled messages -/

variable {size : ℕ} {data : Bytes}

theorem flatten_split : (split size data).flatten = data := by
  fun_induction split size data with
  | case1 data h ih => rw [flatten_cons, ih, take_append_drop]
  | case2 => simp

theorem length_split_le : (split size data).length ≤ data.length + 1 := by
  fun_induction split size data with
  | case1 data h ih =>
    rw [length_drop] at ih
    rw [length_cons]
    omega
  | case2 => simp

/-- The messages of a partition were sent by producers with one segment size, who publish the same
data under the same key. The length of data is that of a slice. -/
structure Feed extends Partition where
  size : ℕ
  size_pos : 0 < size
  data : Bytes → Bytes
  data_lt : ∀ key, (data key).length < 2 ^ 63
  sent : ∀ msg ∈ messages, ∃ (k : Producer size) (sends : ℕ),
    msg.toProducerMessage ∈ publish k msg.topic msg.key (data msg.key) sends

variable (f : Feed)

def Feed.pieces (key : Bytes) : List Bytes := split f.size (f.data key)

variable {f}

theorem bigEndianUint64_fixedBytes {n : ℕ} (h : n < 2 ^ 64) :
    bigEndianUint64 (fixedBytes 8 n) = .ok n := by
  rw [bigEndianUint64, if_neg (by simp), take_of_length_le (by simp), ofBytes_fixedBytes h]

theorem Feed.newSegment_eq (hmsg : msg ∈ f.messages) (hnew : newSegment msg = .ok new) :
    new.total = (f.pieces msg.key).length ∧ (f.pieces msg.key)[new.index]? = some msg.value := by
  obtain ⟨k, sends, hsent⟩ := f.sent msg hmsg
  obtain ⟨⟨piece, idx⟩, hpiece, heq⟩ := mem_map.mp (mem_of_mem_take hsent)
  have hget : (f.pieces msg.key)[idx]? = some piece := mem_zipIdx_iff_getElem?.mp hpiece
  have hidx := (List.getElem?_eq_some_iff.mp hget).1
  have hlen : (f.pieces msg.key).length ≤ _ := length_split_le
  have hlt := f.data_lt msg.key
  have htotal := bigEndianUint64_fixedBytes (show (f.pieces msg.key).length < 2 ^ 64 by omega)
  have hindex := bigEndianUint64_fixedBytes (show idx < 2 ^ 64 by omega)
  have hheaders := congrArg ProducerMessage.headers heq
  have hvalue : piece = msg.value := congrArg ProducerMessage.value heq
  have hparse {producerId : Bytes} (h : newSegment.parse msg
      ⟨keyTotalSegments, fixedBytes 8 (f.pieces msg.key).length⟩ ⟨keySegmentIdx, fixedBytes 8 idx⟩
      producerId = .ok new) :
      new.total = (f.pieces msg.key).length ∧ (f.pieces msg.key)[new.index]? = some msg.value := by
    simp only [newSegment.parse, checkKey, if_true, htotal, hindex, bind, Except.bind] at h
    cases h
    exact ⟨rfl, hvalue ▸ hget⟩
  unfold newSegment at hnew
  rw [← hheaders] at hnew
  by_cases hv : k.msgVersion = msgVersion1_0
  · simp only [makeProducerMessage, hv, if_true, cons_append, nil_append, checkKey, bind,
      Except.bind] at hnew
    exact hparse hnew
  · simp only [makeProducerMessage, hv, if_false, append_nil] at hnew
    exact hparse hnew

/-- The segments of a message are pieces of its data in their order. -/
def Feed.Fits (f : Feed) (m : Buffered) : Prop :=
  m.first.total = (f.pieces m.first.key).length ∧
    m.segments.map (·.orig.value) = (f.pieces m.first.key).take m.segments.length

def Exact (f : Feed) (log : List Event) : Prop :=
  ∀ key value ok, .handled key value ok ∈ log → value = f.data key

/-- What is buffered fits, and what was handled is exact. -/
structure Feed.Sound (f : Feed) (a : Claim × List ConsumerMessage) : Prop where
  sent : ∀ msg ∈ a.2, msg ∈ f.messages
  fits : ∀ m ∈ a.1.buffer, f.Fits m
  exact : Exact f a.1.log

theorem Feed.fits_insertSegment (h : ∀ m ∈ buffer, f.Fits m) (hmsg : new.orig ∈ f.messages)
    (hnew : newSegment new.orig = .ok new) (hins : insertSegment new buffer = .ok buffer') :
    ∀ m ∈ buffer', f.Fits m := by
  obtain ⟨htotal, hpiece⟩ : new.total = (f.pieces new.key).length ∧
    (f.pieces new.key)[new.index]? = some new.orig.value := f.newSegment_eq hmsg hnew
  rcases insertSegment_cases hins with
    ⟨rfl, -⟩ | ⟨hzero, rfl⟩ | ⟨front, m, back, rfl, hkey, hidx, rfl⟩
  · exact h
  · simp only [forall_mem_append, forall_mem_singleton]
    refine ⟨h, htotal, ?_⟩
    rw [hzero, ← head?_eq_getElem?] at hpiece
    simp [Buffered.segments, take_one, hpiece]
  · simp only [forall_mem_append, forall_mem_cons] at h ⊢
    obtain ⟨hfront, ⟨hm, hsegments⟩, hback⟩ := h
    refine ⟨hfront, ⟨hm, ?_⟩, hback⟩
    rw [hidx, ← hkey] at hpiece
    have heq : Buffered.segments ⟨m.first, m.later ++ [new]⟩ = m.segments ++ [new] := rfl
    rw [heq, map_append, hsegments, length_append, length_singleton, take_add_one, hpiece]
    rfl

theorem Exact.cons {e : Event} (h : Exact f log)
    (he : ∀ key value ok, e = .handled key value ok → value = f.data key) : Exact f (e :: log) := by
  intro key value ok hmem
  rcases mem_cons.mp hmem with heq | hmem
  · exact he key value ok heq.symm
  · exact h key value ok hmem

theorem Step.sound (h : Step a a') (ha : f.Sound a) : f.Sound a' := by
  obtain ⟨hsent, hfits, hexact⟩ := ha
  have hrest {m : Buffered} {buffer : List Buffered} (h : ∀ n ∈ m :: buffer, f.Fits n) (ok : Bool) :
      ∀ n ∈ (if ok then buffer else m :: buffer), f.Fits n := by
    cases ok with
    | true => exact (forall_mem_cons.mp h).2
    | false => exact h
  cases h with
  | insert hnew hins =>
    obtain ⟨hmsg, hleft⟩ := forall_mem_cons.mp hsent
    exact ⟨hleft, f.fits_insertSegment hfits hmsg hnew hins, hexact⟩
  | @handle m _ _ _ ok hlen =>
    refine ⟨hsent, hrest hfits ok, hexact.cons ?_⟩
    rintro _ _ _ ⟨⟩
    obtain ⟨htotal, hpieces⟩ := hfits m mem_cons_self
    rw [flatMap_def, hpieces, hlen, htotal, take_length]
    exact flatten_split
  | report ok => exact ⟨hsent, hrest hfits ok, hexact.cons nofun⟩
  | mark => exact ⟨hsent, hfits, hexact.cons nofun⟩

/-- What a handler gets under a key is what was published under it. -/
theorem handled_exact (f : Feed) (c : Consumer) (runs : List (ℕ × Bool)) :
    Exact f (sessions c f.messages runs []) := by
  refine sessions_induction c f.toPartition runs nofun ?_
  intro log s left hlog _ hsteps
  have hend := Steps.invariant (P := f.Sound) hsteps (fun _ _ => Step.sound)
    ⟨fun _ => mem_of_mem_filter, nofun, hlog⟩
  exact hend.exact

def cutFeed : Feed :=
  { cutPartition with
    size := 2
    size_pos := by decide
    data := fun _ => [1, 2, 3]
    data_lt := fun _ => by decide
    sent := by
      intro msg hmsg
      refine ⟨⟨msgVersion1_0, [9]⟩, 2, ?_⟩
      rcases mem_pair.mp hmsg with rfl | rfl <;> simp [publish, split, makeProducerMessage] }

theorem handled_exact_resumed :
    Exact cutFeed [.marked 5, .handled [5] [1, 2, 3] true, .marked 3, .marked 3] :=
  handled_exact cutFeed accepting [(1, false), (5, false)]

end Kaia.Kafka
