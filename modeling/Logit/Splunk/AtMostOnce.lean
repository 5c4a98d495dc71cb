import Logit.Splunk.Send

namespace Logit.Splunk

open Sink (Fault isRetryable)
open Http List

/-- No request carries an object that an earlier one may have left indexed. -/
def Once (posts : List Post) : Prop :=
  posts.Pairwise fun earlier later => ∀ object ∈ earlier.indexed, object ∉ later.body

/-- Nothing of these requests can have been indexed. -/
def Untaken (posts : List Post) : Prop := ∀ post ∈ posts, post.indexed = []

theorem Untaken.append {posts more : List Post} (first : Untaken posts) (second : Untaken more) :
    Untaken (posts ++ more) := by
  intro post mem
  rcases mem_append.mp mem with mem | mem
  · exact first post mem
  · exact second post mem

theorem Once.of_untaken {posts more : List Post} (untaken : Untaken posts) (once : Once posts)
    (next : Once more) : Once (posts ++ more) := by
  refine pairwise_append.mpr ⟨once, next, fun earlier mem later _ object indexed => ?_⟩
  rw [untaken earlier mem] at indexed
  cases indexed

/-- What holds before objects are sent: no request may have left one of them indexed, and the attempt has
noted whether any object may have been. -/
structure Clear (rest : List Object) (s : Sending) : Prop where
  distinct : rest.Nodup
  once : Once s.posts
  apart : ∀ post ∈ s.posts, ∀ object ∈ post.indexed, object ∉ rest
  noted : s.sentAny = false → Untaken s.posts

/-- What a part of an attempt leaves: the objects `after` its outcome can be sent, unless it fails, and then
it is not retried when an object may have been indexed. -/
def Part {α : Type} (after : α → List Object) : Except Fault α × Sending → Prop
  | (.ok outcome, s) => Clear (after outcome) s
  | (.error fault, s) => Once s.posts ∧ (isRetryable fault .atMostOnce = true → Untaken s.posts)

namespace Clear

variable {rest rest' body later : List Object} {s : Sending}

theorem weaken (clear : Clear rest s) (sub : rest'.Sublist rest) : Clear rest' s :=
  ⟨clear.distinct.sublist sub, clear.once,
    fun post mem object indexed inside => clear.apart post mem object indexed (sub.subset inside),
      clear.noted⟩

theorem post_once (clear : Clear (body ++ later) s) (answer : Except Fault EventReply) :
    Once (s.posts ++ [⟨body, answer⟩]) := by
  refine pairwise_append.mpr ⟨clear.once, pairwise_singleton .., fun post mem last single => ?_⟩
  rw [mem_singleton.mp single]
  exact fun object indexed inside => clear.apart post mem object indexed (mem_append_left _ inside)

/-- After one more request, the objects that it cannot have left indexed. -/
theorem post {answer : Except Fault EventReply} {sentAny : Bool} (clear : Clear (body ++ later) s)
    (sub : rest.Sublist (body ++ later)) (apart : ∀ object ∈ Post.indexed ⟨body, answer⟩, object ∉ rest)
    (noted : sentAny = false → s.sentAny = false ∧ Post.indexed ⟨body, answer⟩ = []) (ackIds : List Nat) :
    Clear rest ⟨s.posts ++ [⟨body, answer⟩], ackIds, sentAny⟩ := by
  refine ⟨clear.distinct.sublist sub, clear.post_once answer, fun post mem => ?_, fun unsent => ?_⟩
  · rcases mem_append.mp mem with old | new
    · exact (clear.weaken sub).apart post old
    · rw [mem_singleton.mp new]
      exact apart
  · obtain ⟨before, untaken⟩ := noted unsent
    refine (clear.noted before).append fun post mem => ?_
    rw [mem_singleton.mp mem]
    exact untaken

variable {α : Type} {after : α → List Object}

theorem accepted (poster : Poster) (clear : Clear (body ++ later) s) (ackId : Option Nat) :
    Clear later (poster.keepAckId ackId ⟨s.posts ++ [⟨body, .ok (.accepted ackId)⟩], s.ackIds, true⟩) := by
  have taken : ∀ ackIds, Clear later ⟨s.posts ++ [⟨body, .ok (.accepted ackId)⟩], ackIds, true⟩ :=
    clear.post (sublist_append_right ..)
      (fun object indexed inside => (nodup_append'.mp clear.distinct).2.2 indexed inside) (by simp)
  unfold Poster.keepAckId
  split
  · exact taken _
  · exact taken _

/-- A request that failed: one whose failure would be retried left nothing indexed. -/
theorem failed {fault : Fault} (clear : Clear (body ++ later) s) :
    Part after (.error (afterDelivery fault s.sentAny), { s with posts := s.posts ++ [⟨body, .error fault⟩] }) := by
  refine ⟨clear.post_once _, fun retried => ?_⟩
  obtain ⟨unsent, benign⟩ := afterDelivery_retryable retried
  refine (clear.noted unsent).append fun post mem => ?_
  rw [mem_singleton.mp mem]
  rcases benign with rfl | rfl <;> rfl

theorem givenUp (clear : Clear (body ++ later) s) (answer : Except Fault EventReply) :
    Part after (.error .rejected, { s with posts := s.posts ++ [⟨body, answer⟩] }) :=
  ⟨clear.post_once answer, fun retried => by cases retried⟩

end Clear

namespace Poster

variable {poster : Poster} {s : Sending} {objects later : List Object}

theorem resend_part {rest : List Object} (after : BodyOutcome → List Object)
    (clear : Clear (rest ++ after .done) s) : Part after (poster.resend rest s) := by
  unfold resend postEvent
  cases eventReply poster.ack (poster.answers s.posts.length) with
  | error fault => exact clear.failed
  | ok reply =>
    cases reply with
    | accepted ackId => exact clear.accepted poster ackId
    | invalidEvent n code => exact clear.givenUp _

/-- An oversize answer names the first object, so that nothing is ahead of it. -/
theorem oversize_untaken (body : List Object) : Post.indexed ⟨body, .ok (.invalidEvent 0 6)⟩ = [] := by
  rcases body with _ | ⟨object, body⟩
  · rfl
  · have first : afterInvalidEvent (object :: body).length 6 0 = some 0 := by simp [afterInvalidEvent]
    simp only [Post.indexed, first, take_zero]

/-- The objects to be sent after a body; it is among them when it is to be split. -/
def after (objects later : List Object) : BodyOutcome → List Object
  | .done => later
  | .overCloudCap => objects ++ later

theorem sublist_after (outcome : BodyOutcome) : later.Sublist (after objects later outcome) := by
  cases outcome with
  | done => exact .refl _
  | overCloudCap => exact sublist_append_right ..

theorem sendOnce_part (maySplit : Bool) (clear : Clear (objects ++ later) s) :
    Part (after objects later) (poster.sendOnce objects maySplit s) := by
  unfold sendOnce postEvent
  cases eventReply poster.ack (poster.answers s.posts.length) with
  | error fault => exact clear.failed
  | ok reply =>
    cases reply with
    | accepted ackId => exact clear.accepted poster ackId
    | invalidEvent n code =>
      simp only
      split
      next oversize =>
        obtain ⟨rfl, rfl, -⟩ := oversize
        have whole : Clear (objects ++ later) _ := clear.post (.refl _)
          (by simp [oversize_untaken]) (fun unsent => ⟨unsent, oversize_untaken objects⟩) s.ackIds
        unfold overCloudCap
        split
        · exact whole.weaken (sublist_append_right ..)
        · split
          · exact whole
          · exact clear.givenUp _
      next =>
        cases found : afterInvalidEvent objects.length code n with
        | none => exact clear.givenUp _
        | some bad =>
          have ahead : Post.indexed ⟨objects, .ok (.invalidEvent n code)⟩ = objects.take bad := by
            simp [Post.indexed, found]
          obtain ⟨distinct, -, apart⟩ := nodup_append'.mp clear.distinct
          -- the mark is raised unless nothing is ahead of the bad object
          have left : Clear (objects.drop (bad + 1) ++ later) ⟨s.posts ++ [⟨objects, .ok (.invalidEvent n code)⟩],
              s.ackIds, s.sentAny || decide (0 < bad)⟩ := by
            refine clear.post ((drop_sublist ..).append_right _) (fun object indexed inside => ?_)
              (fun unsent => ?_) _
            · rw [ahead] at indexed
              rcases mem_append.mp inside with same | other
              · exact disjoint_take_drop distinct (Nat.le_succ bad) indexed same
              · exact apart (mem_of_mem_take indexed) other
            · obtain ⟨before, first⟩ := Bool.or_eq_false_iff.mp unsent
              obtain rfl : bad = 0 := by simpa using first
              exact ⟨before, ahead.trans take_zero⟩
          simp only
          split
          · exact left.weaken (sublist_append_right ..)
          · exact resend_part _ left

theorem sendHalves_part (clear : Clear (objects ++ later) s) :
    Part (fun _ => later) (poster.sendHalves objects s) := by
  rw [← take_append_drop (splitPoint objects) objects, append_assoc] at clear
  have left : Part _ (poster.sendOnce _ false s) := sendOnce_part false clear
  rcases first : poster.sendOnce (objects.take (splitPoint objects)) false s with ⟨_ | outcome, s₁⟩
  · rw [first] at left
    simp only [sendHalves, first]
    exact left
  · rw [first] at left
    have right : Part _ (poster.sendOnce _ false s₁) := sendOnce_part false (left.weaken (sublist_after outcome))
    rcases second : poster.sendOnce (objects.drop (splitPoint objects)) false s₁ with ⟨_ | outcome, s₂⟩
    · rw [second] at right
      simp only [sendHalves, first, second]
      exact right
    · rw [second] at right
      simp only [sendHalves, first, second]
      exact right.weaken (sublist_after outcome)

theorem sendBody_part (clear : Clear (objects ++ later) s) : Part (fun _ => later) (poster.sendBody objects s) := by
  have whole : Part _ (poster.sendOnce objects true s) := sendOnce_part true clear
  unfold sendBody
  rcases first : poster.sendOnce objects true s with ⟨fault | (_ | _), s₁⟩
  · rw [first] at whole
    exact whole
  · rw [first] at whole
    exact whole
  · rw [first] at whole
    exact sendHalves_part whole

theorem sendBodies_part {bodies : List (List Object)} (clear : Clear bodies.flatten s) :
    Part (fun _ => []) (poster.sendBodies bodies s) := by
  induction bodies generalizing s with
  | nil => exact clear
  | cons body bodies ih =>
    have part : Part _ (poster.sendBody body s) := sendBody_part clear
    unfold sendBodies
    rcases sent : poster.sendBody body s with ⟨fault | ⟨⟩, s₁⟩
    · rw [sent] at part
      exact part
    · rw [sent] at part
      exact ih part

end Poster

variable {objects : List Object}

theorem pack_flatten (objects : List Object) (max : Nat) : (pack objects max).flatten = objects := by
  have loop : ∀ run bytes, (packLoop max objects run bytes).flatten = run ++ objects := by
    induction objects with
    | nil =>
      intro run bytes
      unfold packLoop
      split
      · simp_all
      · simp
    | cons object rest ih =>
      intro run bytes
      unfold packLoop
      split
      · rw [flatten_cons, ih, singleton_append]
      · rw [ih, append_assoc, singleton_append]
  exact loop [] 0

/-- The result of waiting for acknowledgments is never one to retry under at most once. -/
theorem awaitAcks_kept {pending : List Nat} {polls : List (AckPoll × Bool)} {fault : Fault}
    (failed : awaitAcks pending polls = .error fault) : fault = .ambiguous := by
  induction polls generalizing pending with
  | nil =>
    cases failed
    rfl
  | cons poll polls ih =>
    obtain ⟨poll, late⟩ := poll
    rcases Option.eq_none_or_eq_some (poll.left pending) with unsupported | ⟨left, asked⟩
    · simp [awaitAcks, unsupported] at failed
    · simp only [awaitAcks, asked] at failed
      split at failed
      · cases failed
      · split at failed
        · cases failed
          rfl
        · exact ih failed

/-- One attempt sends no object that it may have left indexed, and if it fails so that it is retried
under at most once, nothing of it can have been indexed. -/
theorem sendObjects_once (poster : Poster) (polls : List (AckPoll × Bool)) (distinct : objects.Nodup) :
    Once (sendObjects poster polls objects).2 ∧ ∀ fault, (sendObjects poster polls objects).1 = .error fault →
        isRetryable fault .atMostOnce = true → Untaken (sendObjects poster polls objects).2 := by
  have part : Part _ (poster.sendBodies (pack (objects.filter fun object =>
      decide (object.bytes.length ≤ poster.maxBodyBytes)) poster.maxBodyBytes) ⟨[], [], false⟩) :=
    Poster.sendBodies_part ⟨by rw [pack_flatten]; exact distinct.filter _, .nil, by simp, by simp [Untaken]⟩
  unfold sendObjects
  rcases sent : poster.sendBodies (pack (objects.filter fun object =>
      decide (object.bytes.length ≤ poster.maxBodyBytes)) poster.maxBodyBytes) ⟨[], [], false⟩
    with ⟨fault | ⟨⟩, s⟩
  · rw [sent] at part
    simp only [sent]
    refine ⟨part.1, ?_⟩
    rintro _ ⟨⟩
    exact part.2
  · rw [sent] at part
    simp only [sent]
    refine ⟨part.once, fun fault failed retried => ?_⟩
    split at failed
    · cases failed
    · rw [awaitAcks_kept failed] at retried
      cases retried

theorem batchObjects_nodup (encoded : List (List UInt8 × Nat)) : (batchObjects encoded).Nodup := by
  refine List.Nodup.of_map Object.index ?_
  have indices : (batchObjects encoded).map Object.index = encoded.zipIdx.map Prod.snd := by
    simp only [batchObjects, map_map]
    exact map_congr_left fun _ _ => rfl
  rw [indices, zipIdx_map_snd]
  exact nodup_range'

/-- Under at most once, whatever a batch, a body limit and the answers to all requests of all its
attempts are, no object that Splunk may have indexed is put on the wire again. -/
theorem object_sent_once (maxBodyBytes : Nat) (ack : Bool) (encoded : List (List UInt8 × Nat))
    (weathers : List Weather) : (attempts .atMostOnce maxBodyBytes ack (batchObjects encoded) weathers).Pairwise
      fun earlier later => ∀ object ∈ earlier.indexed, object ∉ later.body := by
  induction weathers with
  | nil => exact List.Pairwise.nil
  | cons weather later ih =>
    obtain ⟨once, failed⟩ := sendObjects_once ⟨maxBodyBytes, ack, weather.answers⟩ weather.polls
      (batchObjects_nodup encoded)
    unfold attempts
    rcases sent : sendObjects ⟨maxBodyBytes, ack, weather.answers⟩ weather.polls (batchObjects encoded)
      with ⟨fault | ⟨⟩, posts⟩
    · rw [sent] at once failed
      simp only
      split
      · rename_i retried
        exact Once.of_untaken (failed fault rfl retried) once ih
      · exact once
    · rw [sent] at once
      exact once

end Logit.Splunk
