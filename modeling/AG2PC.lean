import AG2PC.Library.XorAlgebra
import AG2PC.Backend.HashPads
import AG2PC.Backend.LeakySoundness
import AG2PC.Backend.InputPrivacy
import AG2PC.Backend.Replay
import AG2PC.Backend.Reveal
import AG2PC.Backend.SlotsInvisible
import AG2PC.Backend.MaskSoundness
import AG2PC.Session.Chunks
import AG2PC.Session.MaskAgreement
import AG2PC.Session.CotGate
import AG2PC.Session.LiveIds
import AG2PC.Session.InputReveal
import AG2PC.Backend.Bucketing
import AG2PC.Backend.ShareOpening
import AG2PC.Backend.EqualityCheck
import AG2PC.Backend.ChunkPipe
import AG2PC.Session.PeerBytes
import AG2PC.Backend.LiveWidth
import AG2PC.Backend.IntWidths
import AG2PC.Backend.Streaming
import AG2PC.Backend.GarblePads
import AG2PC.Backend.PadReuse
import AG2PC.Backend.EvaluatorRuns
import AG2PC.Backend.GarblerRuns
import AG2PC.Backend.DigestProbe
import AG2PC.Backend.EvaluatorPrivacy
import AG2PC.Backend.AlikeGarbles
import AG2PC.Backend.GarblerPrivacy
import AG2PC.Backend.MaskProbe
import AG2PC.Backend.InStep
