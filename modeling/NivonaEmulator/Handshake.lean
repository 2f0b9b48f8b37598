import NivonaEmulator.Session
import NivonaEmulator.System

/-!
# The handshake

A handshake request carries no key prefix, but the parser cuts one off whatever
frame happens to start with the current key.  A seed that does is cut short,
and its request goes unanswered.
-/

namespace Nivona

/-! ## The request frame -/

theorem buildHuFrame_eq (seed : List UInt8) :
    Client.buildHuFrame seed = frameOf (hCmd 0x55) (seed ++ nivonaHuVerifier seed 0 4) true := by
  rw [Client.buildHuFrame, Client.buildFrame_eq]
  rfl

/-- The seed starts with the key of the session in progress. -/
def SeedCollides (f : Frame) (seed : List UInt8) : Prop :=
  f.handshakeDone = true ∧ seed.take KEY_PREFIX_LEN = f.keyPrefix.bytes

/-- The body of the request loses its first two bytes exactly on a collision. -/
theorem stripPrefix_hu {f : Frame} {seed : List UInt8} (hseed : seed.length = 4) :
    (SeedCollides f seed →
      stripPrefix f true (seed ++ nivonaHuVerifier seed 0 4) =
        seed.drop KEY_PREFIX_LEN ++ nivonaHuVerifier seed 0 4) ∧
    (¬SeedCollides f seed →
      stripPrefix f true (seed ++ nivonaHuVerifier seed 0 4) =
        seed ++ nivonaHuVerifier seed 0 4) := by
  have htake : (seed ++ nivonaHuVerifier seed 0 4).take KEY_PREFIX_LEN =
      seed.take KEY_PREFIX_LEN :=
    List.take_append_of_le_length (by rw [hseed]; decide)
  have hdrop : (seed ++ nivonaHuVerifier seed 0 4).drop KEY_PREFIX_LEN =
      seed.drop KEY_PREFIX_LEN ++ nivonaHuVerifier seed 0 4 :=
    List.drop_append_of_le_length (by rw [hseed]; decide)
  have hlen : KEY_PREFIX_LEN ≤ (seed ++ nivonaHuVerifier seed 0 4).length := by
    rw [List.length_append, hseed]
    exact Nat.le_add_right_of_le (by decide)
  rw [stripPrefix, htake, hdrop]
  constructor
  · rintro ⟨hdone, hkey⟩
    rw [if_pos ⟨rfl, hdone, hlen, hkey⟩]
  · intro h
    rw [if_neg]
    rintro ⟨-, hdone, -, hkey⟩
    exact h ⟨hdone, hkey⟩

/-- The request reaches the handshake handler with what is left of its body. -/
theorem feed_buildHuFrame {m : Machine} (hidle : m.link.frame.inFrame = false)
    {seed : List UInt8} (hseed : seed.length = 4) :
    ∃ d h, nivonaFrameFeed m (Client.buildHuFrame seed) =
      closeFrame (nivonaDispatch
        ((m.receiving (Client.buildHuFrame seed) h).withDiag d) CMD_HANDSHAKE
        (stripPrefix m.link.frame true (seed ++ nivonaHuVerifier seed 0 4))) := by
  have hsize : expectedRequestSize 0x55 = (seed ++ nivonaHuVerifier seed 0 4).length + 5 := by
    rw [List.length_append, hseed, length_nivonaHuVerifier]
    rfl
  rw [buildHuFrame_eq]
  exact feed_fixedSize hidle hsize

/-! ## Agreement -/

/-- Exactly one response, which carries the seed, the drawn key and the verifier
of both, and a device that stores the key it sent. -/
def HandshakeAgrees (m : Machine) (seed : List UInt8) : Prop :=
  let m' := nivonaFrameFeed m (Client.buildHuFrame seed)
  (∃ response, notifies (m'.link.calls.drop m.link.calls.length) = [response] ∧
    Client.parseFrame 2 true 0 response =
      some (CMD_HANDSHAKE, huResponse seed (m.link.randomKeys 0))) ∧
  m'.link.frame.handshakeDone = true ∧ m'.link.frame.keyPrefix = m.link.randomKeys 0

/-- The response frame decodes to its body. -/
theorem parseFrame_huResponse (seed : List UInt8) (kp : KeyPrefix) :
    Client.parseFrame 2 true 0 (frameOf CMD_HANDSHAKE (huResponse seed kp) true) =
      some (CMD_HANDSHAKE, huResponse seed kp) :=
  Client.parseFrame_frameOf CMD_HANDSHAKE (huResponse seed kp) true 0

/-- What the request does when it is not cut short. -/
theorem feed_hu_answered {m : Machine} (hidle : m.link.frame.inFrame = false)
    {seed : List UInt8} (hseed : seed.length = 4) (hfree : ¬SeedCollides m.link.frame seed) :
    let m' := nivonaFrameFeed m (Client.buildHuFrame seed)
    m'.link.calls = m.link.calls ++
      [Call.dispatch CMD_HANDSHAKE (seed ++ nivonaHuVerifier seed 0 4),
        Call.notify (frameOf CMD_HANDSHAKE (huResponse seed (m.link.randomKeys 0)) true)] ∧
    m'.link.frame =
      { m.link.frame.idle with handshakeDone := true, keyPrefix := m.link.randomKeys 0 } := by
  obtain ⟨d, h, hfeed⟩ := feed_buildHuFrame hidle hseed
  rw [(stripPrefix_hu hseed).2 hfree, nivonaDispatch, dispatchHandler, if_pos rfl] at hfeed
  have hlen : 6 ≤ (seed ++ nivonaHuVerifier seed 0 4).length := by
    rw [List.length_append, hseed, length_nivonaHuVerifier]
  have htake : (seed ++ nivonaHuVerifier seed 0 4).take 4 = seed := by
    rw [← hseed, List.take_left]
  obtain ⟨diag, results, wire, hlink⟩ := handleHu_long (m :=
    { core := m.core
      link := { ((m.receiving (Client.buildHuFrame seed) h).withDiag d).link with
        calls := m.link.calls ++
          [Call.dispatch CMD_HANDSHAKE (seed ++ nivonaHuVerifier seed 0 4)] } }) hlen
  rw [htake] at hlink
  dsimp only
  rw [hfeed]
  constructor
  · rw [closeFrame_calls]
    apply (congrArg Link.calls hlink).trans
    simp
  · exact congrArg (fun l : Link => l.frame.idle) hlink

/-- A colliding request is not answered. -/
theorem feed_hu_unanswered {m : Machine} (hidle : m.link.frame.inFrame = false)
    {seed : List UInt8} (hseed : seed.length = 4) (hcoll : SeedCollides m.link.frame seed) :
    notifies ((nivonaFrameFeed m (Client.buildHuFrame seed)).link.calls.drop
      m.link.calls.length) = [] := by
  obtain ⟨d, h, hfeed⟩ := feed_buildHuFrame hidle hseed
  rw [(stripPrefix_hu hseed).1 hcoll, nivonaDispatch, dispatchHandler, if_pos rfl] at hfeed
  have hlen : (seed.drop KEY_PREFIX_LEN ++ nivonaHuVerifier seed 0 4).length < 6 := by
    rw [List.length_append, List.length_drop, hseed, length_nivonaHuVerifier]
    decide
  obtain ⟨d', hhu⟩ := handleHu_short (m :=
    { core := m.core
      link := { ((m.receiving (Client.buildHuFrame seed) h).withDiag d).link with
        calls := m.link.calls ++ [Call.dispatch CMD_HANDSHAKE
          (seed.drop KEY_PREFIX_LEN ++ nivonaHuVerifier seed 0 4)] } }) hlen
  have hcalls : (nivonaFrameFeed m (Client.buildHuFrame seed)).link.calls = m.link.calls ++
      [Call.dispatch CMD_HANDSHAKE
        (seed.drop KEY_PREFIX_LEN ++ nivonaHuVerifier seed 0 4)] := by
    rw [hfeed, closeFrame_calls]
    exact congrArg (fun m : Machine => m.link.calls) hhu
  rw [hcalls, List.drop_left]
  rfl

theorem handshakeAgrees_of_free {m : Machine} (hidle : m.link.frame.inFrame = false)
    {seed : List UInt8} (hseed : seed.length = 4) (hfree : ¬SeedCollides m.link.frame seed) :
    HandshakeAgrees m seed := by
  obtain ⟨hcalls, hframe⟩ := feed_hu_answered hidle hseed hfree
  refine ⟨⟨_, ?_, parseFrame_huResponse seed _⟩, ?_, ?_⟩
  · rw [hcalls, List.drop_left]
    rfl
  · rw [hframe]
  · rw [hframe]

theorem not_handshakeAgrees_of_collision {m : Machine} (hidle : m.link.frame.inFrame = false)
    {seed : List UInt8} (hseed : seed.length = 4) (hcoll : SeedCollides m.link.frame seed) :
    ¬HandshakeAgrees m seed := by
  rintro ⟨⟨response, hresp, -⟩, -⟩
  rw [feed_hu_unanswered hidle hseed hcoll] at hresp
  cases hresp

/-- From every state with an idle parser, a well-formed request is agreed upon
exactly when its seed does not start with the key of a session in progress. -/
theorem handshakeAgrees_iff (m : Machine) (hidle : m.link.frame.inFrame = false)
    (seed : List UInt8) (hseed : seed.length = 4) :
    HandshakeAgrees m seed ↔
      ¬(m.link.frame.handshakeDone = true ∧
        seed.take KEY_PREFIX_LEN = m.link.frame.keyPrefix.bytes) :=
  ⟨fun h hcoll => not_handshakeAgrees_of_collision hidle hseed hcoll h,
    fun hfree => handshakeAgrees_of_free hidle hseed hfree⟩

/-- The first handshake of a new machine. -/
theorem handshakeAgrees_factoryFresh :
    HandshakeAgrees Machine.factoryFresh [0xB3, 0x89, 0x00, 0x48] :=
  (handshakeAgrees_iff Machine.factoryFresh rfl [0xB3, 0x89, 0x00, 0x48] rfl).mpr
    fun h => by cases h.1

/-- A second handshake whose seed starts with the first session key fails. -/
theorem rehandshake_unanswered :
    ¬HandshakeAgrees
      (nivonaFrameFeed Machine.factoryFresh (Client.buildHuFrame [0xB3, 0x89, 0x00, 0x48]))
      [0x12, 0x34, 0x00, 0x48] := by
  have hfree : ¬SeedCollides Machine.factoryFresh.link.frame [0xB3, 0x89, 0x00, 0x48] := by
    rintro ⟨hdone, -⟩
    cases hdone
  obtain ⟨-, hframe⟩ := feed_hu_answered (m := Machine.factoryFresh) rfl rfl hfree
  refine not_handshakeAgrees_of_collision ?_ rfl ?_
  · rw [hframe]
    rfl
  · rw [hframe]
    exact ⟨rfl, rfl⟩

end Nivona
