import Chording.Text.Encoding.Detect
import Chording.Key.Name
import Chording.Key.Event
import Chording.Layer
import Chording.Chord.Matching
import Chording.Config
import Chording.Resolution
import Chording.Recognizer
import Chording.Downstream
import Chording.KeyFilter
import Chording.ChordFile.Parse
import Chording.Config.Json
import Chording.Json.Lemmas
import Chording.Proofs.Resolves
import Chording.Proofs.Conservation
import Chording.Proofs.Viability
import Chording.Proofs.Room
import Chording.Proofs.Moves
import Chording.Proofs.Streams
import Chording.Proofs.InStep
import Chording.Proofs.CleanRuns
import Chording.Proofs.Sessions
import Chording.Proofs.NothingStuck
import Chording.Proofs.Spelling
import Chording.Proofs.AddressStates
import Chording.Proofs.Recognition
import Chording.Proofs.DeferredChords
import Chording.Proofs.ReleasedFronts
import Chording.Proofs.TimeWindow
import Chording.Proofs.Transparency
import Chording.Proofs.SameActions
import Chording.Proofs.Alike
import Chording.Proofs.TakenAddresses
import Chording.Proofs.Reloads
import Chording.Proofs.Switched
import Chording.Proofs.Guarded
import Chording.Proofs.Blanks
import Chording.Proofs.Names
import Chording.Proofs.WrittenLines
import Chording.Proofs.WrittenFiles
import Chording.Proofs.Decoding
import Chording.Proofs.LoadedFiles
import Chording.Proofs.JoinedFiles
import Chording.Proofs.SkippedTicks
import Chording.Proofs.BoundedWaiting
import Chording.Proofs.SetMatching
import Chording.Proofs.Records
import Chording.Proofs.ReleasedOnce
import Chording.Proofs.ActivationOrder
import Chording.Proofs.Greedy
import Chording.Proofs.Comments
import Chording.Proofs.JsonTexts
import Chording.Proofs.JsonConfigs
import Chording.Proofs.Validation
import Chording.Proofs.KeyWords
import Chording.Proofs.TimedKeys
import Chording.Proofs.QueueRuns
import Chording.Proofs.LayerWords
