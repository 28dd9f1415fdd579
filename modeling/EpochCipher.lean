import EpochCipher.Cache
import EpochCipher.Cache.Run
import EpochCipher.Cache.Shared
import EpochCipher.Cipher.Checked
import EpochCipher.Schedule.Edit
import EpochCipher.Proofs.LittleEndian
import EpochCipher.Proofs.RotationUnits
import EpochCipher.Proofs.LinearMix
import EpochCipher.Proofs.State
import EpochCipher.Proofs.Network
import EpochCipher.Proofs.Substitution
import EpochCipher.Proofs.Cipher
import EpochCipher.Proofs.RotationSet
import EpochCipher.Proofs.Schedule
import EpochCipher.Proofs.Collision
import EpochCipher.Proofs.Edit
import EpochCipher.Proofs.Keccak
import EpochCipher.Proofs.DrawLayout
import EpochCipher.Proofs.Digest
import EpochCipher.Proofs.Residues
import EpochCipher.Proofs.Cache
import EpochCipher.Proofs.CacheOrder
import EpochCipher.Proofs.CacheTransparency
import EpochCipher.Proofs.CacheShared
import EpochCipher.Proofs.Fieldwise
import EpochCipher.Proofs.ShuffleOrder
import EpochCipher.Proofs.Seeds
import EpochCipher.Proofs.Checked
import EpochCipher.Proofs.Inversion
import EpochCipher.Proofs.RoundKeys
import EpochCipher.Proofs.Diffusion
import EpochCipher.Proofs.RotationPasses
import EpochCipher.Proofs.RotationProduct
import EpochCipher.Proofs.RotationPowers
import EpochCipher.Proofs.ScaledDraws
import EpochCipher.Proofs.PlaceValue
