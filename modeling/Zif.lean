import Zif.Go.Basic
import Zif.Go.Proofs.SliceProofs
import Zif.Lib.Proofs.RecencyProofs
import Zif.Lib.Proofs.BigEndianProofs
import Zif.Dht.Proofs.TableProofs
import Zif.Dht.Proofs.ClosestProofs
import Zif.Lib.Proofs.RunsProofs
import Zif.Node.Proofs.WritersProofs
import Zif.Dht.Proofs.EntryProofs
import Zif.Dht.Proofs.ServingProofs
import Zif.Lib.Proofs.PagingProofs
import Zif.Node.Proofs.AddPostProofs
import Zif.Go.Proofs.DecimalProofs
import Zif.Node.Proofs.MirrorProofs
import Zif.Lib.Proofs.DelimitedProofs
import Zif.Node.Proofs.PiecesProofs
import Zif.Lib.Proofs.ArrivalProofs
import Zif.Dht.Proofs.DiscoveryProofs
import Zif.Dht.Proofs.ArrivalOrderProofs
import Zif.Node.Proofs.AddPeerProofs
import Zif.Node.Proofs.ResolveProofs
import Zif.Data.Proofs.HistoryProofs
import Zif.Node.Commands
import Zif.Node.Proofs.PublishedProofs
import Zif.Node.Proofs.OwnEntryProofs
import Zif.Lib.Proofs.SessionProofs
import Zif.Proto.Handshake
import Zif.Proto.Proofs.HandshakeProofs
import Zif.Lib.Proofs.BufferedProofs
import Zif.Proto.Server
import Zif.Proto.Proofs.TalkProofs
import Zif.Proto.Proofs.ServerProofs
import Zif.Node.PeerManager
import Zif.Node.Proofs.ConnectProofs
import Zif.Node.Listener
import Zif.Node.Proofs.ListenerProofs
import Zif.Node.MirrorCommand
import Zif.Node.Proofs.MirrorCommandProofs
import Zif.Lib.Pool
import Zif.Node.Connections
import Zif.Node.Proofs.ConnectionsProofs
import Zif.Node.Proofs.PeerLimitProofs
import Zif.Node.Proofs.SeedManagersProofs
import Zif.Dht.Proofs.AddressTextProofs
import Zif.Dht.Proofs.VerifyProofs
import Zif.Dht.Proofs.BucketOrderProofs
import Zif.Dht.Proofs.BucketWalkProofs
import Zif.Dht.Proofs.SeedRelationProofs
import Zif.Dht.Proofs.FaultsProofs
import Zif.Dht.Proofs.InStepProofs
import Zif.Dht.Proofs.StartupProofs
import Zif.Node.Proofs.HandlersProofs
import Zif.Node.Proofs.PostCountProofs
import Zif.Go.Proofs.ResultProofs
import Zif.Data.Proofs.QueryProofs
import Zif.Node.Proofs.HashListProofs
import Zif.Data.Insertion
import Zif.Data.Proofs.InsertionProofs
import Zif.Data.Proofs.ResumeProofs
import Zif.Node.Proofs.SeedChoiceProofs
import Zif.Node.Wiring
import Zif.Node.Proofs.WiringProofs
import Zif.Node.Proofs.EvictionProofs
import Zif.Node.SeedSearch
import Zif.Node.Proofs.SeedSearchProofs
import Zif.Dht.Proofs.DistanceProofs
import Zif.Dht.Search
import Zif.Dht.Proofs.SearchProofs
import Zif.Node.Proofs.BootstrapProofs
import Zif.Go.Channel
import Zif.Util.Limiter
import Zif.Util.Proofs.LimiterProofs
import Zif.Node.Reply
import Zif.Node.Proofs.ReplyProofs
import Zif.Lib.Traversal
import Zif.Lib.Proofs.TraversalProofs
import Zif.Node.NetMap
import Zif.Node.Proofs.NetMapProofs
import Zif.Lib.Decoding
import Zif.Lib.Proofs.DecodingProofs
import Zif.Lib.Proofs.ChunksProofs
import Zif.Msgpack.Encode
import Zif.Msgpack.Decode
import Zif.Msgpack.Struct
import Zif.Msgpack.Value
import Zif.Msgpack.Proofs.NumberProofs
import Zif.Msgpack.Proofs.StructProofs
import Zif.Msgpack.Proofs.ValueProofs
import Zif.Proto.Wire
import Zif.Proto.Proofs.WireProofs
import Zif.Proto.Proofs.WireLengthProofs
import Zif.Lib.Shuffle
import Zif.Lib.Proofs.ShuffleProofs
import Zif.Node.Explore
import Zif.Node.Proofs.OwnAddressProofs
import Zif.Node.Proofs.ExploreProofs
import Zif.Dht.Proofs.OwnBucketProofs
import Zif.Node.Proofs.ExploreRunProofs
import Zif.Lib.Ranking
import Zif.Lib.Proofs.RankingProofs
import Zif.Data.Pages
import Zif.Data.Proofs.PagesProofs
import Zif.Lib.Call
import Zif.Lib.Proofs.CallProofs
import Zif.Proto.Client
import Zif.Node.Serve
import Zif.Node.Proofs.ServeProofs
import Zif.Node.Replication
import Zif.Node.Proofs.ReplicationProofs
import Zif.Proto.Listen
import Zif.Proto.Proofs.ListenProofs
import Zif.Proto.Streams
import Zif.Util.Proofs.TokenProofs
import Zif.Proto.Proofs.StreamsProofs
