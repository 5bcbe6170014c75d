import Dockerset.Acmesh.Delegate
import Dockerset.CidrChecker.Admits
import Dockerset.Creality.FrameTime
import Dockerset.Excalidraw.Editor
import Dockerset.Frpc.Files
import Dockerset.GeoSni.ClientHello
import Dockerset.GeoSni.Forward
import Dockerset.GeoSni.Handler
import Dockerset.GeoSni.HostRead
import Dockerset.GeoSni.ResolverCrash
import Dockerset.GeoSni.ResolverRestart
import Dockerset.Mdns.Intent
import Dockerset.Mdns.Network
import Dockerset.MdnsRepeater.Deployment
import Dockerset.Netfin.Agreement
import Dockerset.Netfin.AtomicCopy
import Dockerset.Netfin.Convergence
import Dockerset.Netfin.DirModes
import Dockerset.Netfin.FailedRemoval
import Dockerset.Netfin.Harmless
import Dockerset.Netfin.Idempotent
import Dockerset.Netfin.Incremental
import Dockerset.Netfin.KnownRemovals
import Dockerset.Netfin.LightReconcile
import Dockerset.Netfin.Locality
import Dockerset.Netfin.NormalizeReplica
import Dockerset.Netfin.PartialScan
import Dockerset.Netfin.Quiescence
import Dockerset.Netfin.ReplicaStorage
import Dockerset.Netfin.Replicator
import Dockerset.Netfin.RootLink
import Dockerset.Netfin.RoundTrip
import Dockerset.Netfin.SafePath
import Dockerset.Netfin.Sidecar
import Dockerset.Netfin.SqliteExclude
import Dockerset.Netfin.Unmirrorable
import Dockerset.Netfin.WatchLoop
import Dockerset.Rewriter.Transparent
import Dockerset.Webauthn.Replay
import Dockerset.WebauthnData.Chain
