import DfVrf.Lib.InPlace
import DfVrf.Crypto.Mq
import DfVrf.Lib.Negacyclic
import DfVrf.Lib.Butterfly
import DfVrf.Crypto.MqNtt
import DfVrf.Crypto.Norm
import DfVrf.Crypto.Verify
import DfVrf.Contracts.FalconUtils
import DfVrf.Contracts.NttFalcon
import DfVrf.Contracts.FalconCore
import DfVrf.Crypto.KeccakPrng
import DfVrf.Lib.Sampling
import DfVrf.Lib.Compaction
import DfVrf.Crypto.HashToPoint
import DfVrf.Crypto.HashToPointCt
import DfVrf.Contracts.HashToPoint
import DfVrf.Agreement.HashToPoint
import DfVrf.Crypto.Codec
import DfVrf.Crypto.Deterministic
import DfVrf.Crypto.Sign
import DfVrf.Crypto.SigSize
import DfVrf.Security.KeccakMode
import DfVrf.Contracts.VrfFalcon
import DfVrf.Crypto.Encoder
import DfVrf.Go.Packing
import DfVrf.Agreement.Verify
import DfVrf.Go.Vrf
import DfVrf.Go.Falcon
import DfVrf.Agreement.PublicKey
import DfVrf.Security.Canonicity
import DfVrf.Security.Transcript
import DfVrf.Crypto.FixedCodec
import DfVrf.Crypto.ConstantTime
import DfVrf.Crypto.SignDyn
import DfVrf.Agreement.Signing
import DfVrf.Contracts.Epervier
import DfVrf.Crypto.Epervier
import DfVrf.Crypto.Epervier16
import DfVrf.Agreement.Epervier
import DfVrf.Lib.KeccakF
import DfVrf.Crypto.ProcessBlock
import DfVrf.Contracts.KeccakF1600
import DfVrf.Agreement.KeccakF1600
import DfVrf.Agreement.ShakeStream
import DfVrf.Agreement.S1Coeffs
import DfVrf.Lib.Checked
import DfVrf.Contracts.Ntt
import DfVrf.Contracts.NttStorage
import DfVrf.Crypto.Bounds
import DfVrf.Go.KeccakS2
import DfVrf.Go.ConvertCt
import DfVrf.Crypto.EpervierOpen
import DfVrf.Lib.Words
import DfVrf.Crypto.EpervierCodec
import DfVrf.Contracts.FalconEncodings
import DfVrf.Agreement.Decompress
import DfVrf.Lib.Limbs
import DfVrf.Crypto.NtruDeepest
import DfVrf.Lib.Memory
import DfVrf.Contracts.SigVerifier
import DfVrf.Security.SigParsing
import DfVrf.Crypto.Modp
import DfVrf.Crypto.ModpNtt
import DfVrf.Lib.FieldNorm
import DfVrf.Crypto.Zint
import DfVrf.Crypto.RebuildCrt
import DfVrf.Crypto.MakeFg
import DfVrf.Crypto.Mkgauss
import DfVrf.Crypto.Bezout
import DfVrf.Crypto.SolveNtru
import DfVrf.Lib.NormBound
import DfVrf.Crypto.NewKeygen
import DfVrf.Crypto.KeygenMake
import DfVrf.Go.VrfProve
import DfVrf.Crypto.Fpr
import DfVrf.Crypto.FprArith
import DfVrf.Crypto.FprConvert
import DfVrf.Crypto.Prng
import DfVrf.Crypto.Sampler
